/-! # Decimal text of whole numbers

Numbers are written in base ten without grouping. A padded number has at least a given
count of digits, and a signed number shows its sign even when it is not negative. Both
can be read back.
-/
namespace Tapecraft.Decimal

/-- The digits of a number, with zeros in front up to a width. A number that needs more
digits is written in full. -/
def padded (width n : Nat) : String :=
  let digits := Nat.toDigits 10 n
  .ofList (List.replicate (width - digits.length) '0' ++ digits)

def signed (i : Int) : String :=
  if i < 0 then "-" ++ i.natAbs.repr else "+" ++ i.natAbs.repr

def read? (text : List Char) : Option Nat :=
  if text ≠ [] ∧ text.all Char.isDigit then some (Nat.ofDigitChars 10 text 0) else none

def readSigned? : List Char → Option Int
  | '+' :: digits => (read? digits).map Int.ofNat
  | '-' :: digits => (read? digits).map fun n => -Int.ofNat n
  | _ => none

end Tapecraft.Decimal
