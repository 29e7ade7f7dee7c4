import Tapecraft.Text.Blank
import Tapecraft.Text.Integer

/-! # Lists of input values

Input values are written as integers with commas between them and blanks around them.
-/
namespace Tapecraft.Inputs

/-- Why a text is not a list of inputs: its first part that is not an integer. -/
structure Malformed where
  part : String
  reason : IntegerError
deriving DecidableEq, Repr

def Malformed.message (e : Malformed) : String :=
  "could not parse input '" ++ e.part ++ "' as int: " ++ e.reason.message

def readPart (part : List Char) : Except Malformed Int64 :=
  let trimmed := trimBlanks part
  match Integer.readSigned trimmed with
  | .ok value => .ok value
  | .error reason => .error ⟨.ofList trimmed, reason⟩

def parse (text : String) : Except Malformed (List Int64) :=
  (text.toList.splitOn ',').mapM readPart

end Tapecraft.Inputs
