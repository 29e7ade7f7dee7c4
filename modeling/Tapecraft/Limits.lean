/-! # Ceilings on a run -/
namespace Tapecraft

/-- The ceilings on a single run. -/
structure Limits where
  instructions : Nat := 10000000
  cells : Nat := 30000
deriving DecidableEq, Repr

end Tapecraft
