/-! # Resolved instructions

An instruction is what the machine executes: a command whose loop brackets have been
replaced by jumps to instruction indices. Hand-assembled programs may use any
displacement, any delta and any target, and may stop early by `halt`.
-/
namespace Tapecraft

/-- One instruction of the machine. The pointer wraps at 64 bits and a cell at 8, and the
jumps test the current cell. -/
inductive Instruction where
  | move (displacement : Int64)
  | add (delta : Int8)
  | print
  | read
  | jumpIfZero (target : Nat)
  | jumpIfNonzero (target : Nat)
  | halt
deriving DecidableEq, Repr

end Tapecraft
