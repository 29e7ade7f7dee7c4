/-! # Run lengths

For display, a run of one repeatable command is written as the command followed by the
length of the run. Brackets, and digits that were in the text already, stay as they are,
and everything else is dropped before runs are counted. A run of one has no length
written, so that a shortened text stays the same when it is shortened again.
-/
namespace Tapecraft.RunLength

def isRepeatable (c : Char) : Bool :=
  c = '<' || c = '>' || c = '+' || c = '-' || c = ',' || c = '.'

def isKept (c : Char) : Bool := isRepeatable c || c = '[' || c = ']' || c.isDigit

/-- Puts a character in front of a list of runs. It joins the first run when it is the
same repeatable character. -/
def cons (c : Char) : List (Char × Nat) → List (Char × Nat)
  | [] => [(c, 1)]
  | (d, count) :: rest =>
    if c = d ∧ isRepeatable c then (d, count + 1) :: rest else (c, 1) :: (d, count) :: rest

def runs (text : List Char) : List (Char × Nat) := text.foldr cons []

def runText : Char × Nat → List Char
  | (c, count) => if count ≤ 1 then [c] else c :: Nat.toDigits 10 count

def shortenList (text : List Char) : List Char := (runs (text.filter isKept)).flatMap runText

def shorten (text : String) : String := .ofList (shortenList text.toList)

/-- Undoes the shortening of a text: a repeatable character with a block of digits behind
it stands for so many of that character. -/
def expand : List Char → List Char
  | [] => []
  | c :: rest =>
    if isRepeatable c ∧ rest.takeWhile Char.isDigit ≠ [] then
      List.replicate (Nat.ofDigitChars 10 (rest.takeWhile Char.isDigit) 0) c ++
        expand (rest.dropWhile Char.isDigit)
    else c :: expand rest
termination_by text => text.length
decreasing_by
  · exact Nat.lt_succ_of_le (List.dropWhile_suffix _).length_le
  · exact Nat.lt_succ_self _

end Tapecraft.RunLength
