import Tapecraft.Program.Basic
import Tapecraft.Text.Decimal

/-! # Listings

The listing of a program has one line for each instruction: its index, its mnemonic and
its operand. Indices and targets have at least four digits, and displacements and deltas
carry their sign. A listing can be read back.
-/
namespace Tapecraft

def Instruction.text : Instruction → String
  | move displacement => "ptr " ++ Decimal.signed displacement.toInt
  | add delta => "add " ++ Decimal.signed delta.toInt
  | print => "out"
  | read => "in"
  | jumpIfZero target => "jz " ++ Decimal.padded 4 target
  | jumpIfNonzero target => "jnz " ++ Decimal.padded 4 target
  | halt => "end"

namespace Program

def line (index : Nat) (i : Instruction) : String :=
  Decimal.padded 4 index ++ ": " ++ i.text ++ "\n"

def listing (p : Program) : String := String.join (p.code.toList.mapIdx line)

def readInstruction? : List Char → Option Instruction
  | 'p' :: 't' :: 'r' :: ' ' :: operand => (Decimal.readSigned? operand).map (.move ∘ Int64.ofInt)
  | 'a' :: 'd' :: 'd' :: ' ' :: operand => (Decimal.readSigned? operand).map (.add ∘ Int8.ofInt)
  | ['o', 'u', 't'] => some .print
  | ['i', 'n'] => some .read
  | 'j' :: 'z' :: ' ' :: operand => (Decimal.read? operand).map .jumpIfZero
  | 'j' :: 'n' :: 'z' :: ' ' :: operand => (Decimal.read? operand).map .jumpIfNonzero
  | ['e', 'n', 'd'] => some .halt
  | _ => none

/-- The instruction on a line of a listing. Its index is passed over. -/
def readLine? (line : List Char) : Option Instruction :=
  match line.dropWhile Char.isDigit with
  | ':' :: ' ' :: rest => readInstruction? rest
  | _ => none

def readListing? (text : String) : Option (List Instruction) :=
  (text.toList.splitOn '\n').dropLast.mapM readLine?

end Program

end Tapecraft
