/-! # Reading from the front of a text

A reader takes what it recognises from the front of a list of characters and leaves the
rest, or fails. The readers of this module know characters, spaces, line ends and
comments.
-/
namespace Tapecraft.Toml

abbrev Reader := StateT (List Char) Option

namespace Reader
variable {α : Type}

def one (test : Char → Bool) : Reader Char
  | [] => none
  | c :: rest => if test c then some (c, rest) else none

def char (c : Char) : Reader Unit := do let _ ← one (· == c)

def literal (text : String) : Reader Unit := text.toList.forM char

def peek? : Reader (Option Char) := fun cs => some (cs.head?, cs)

def optional (r : Reader α) : Reader (Option α) := fun cs =>
  match r cs with
  | none => some (none, cs)
  | some (a, rest) => some (some a, rest)

def manyFrom (r : Reader α) : List Char → List α → List Char → List α × List Char
  | [], found, cs => (found.reverse, cs)
  | _ :: bound, found, cs =>
    match r cs with
    | none => (found.reverse, cs)
    | some (a, rest) => manyFrom r bound (a :: found) rest

/-- What a reader recognises in a row, as often as it does. Each time takes at least one
character, so the text itself bounds how often that is. -/
def many (r : Reader α) : Reader (List α) := fun cs => some (manyFrom r cs [] cs)

def isSpace (c : Char) : Bool := c = ' ' || c = '\t'

def spaces : Reader Unit := fun cs => some ((), cs.dropWhile isSpace)

def newline : Reader Unit
  | '\n' :: rest => some ((), rest)
  | '\r' :: '\n' :: rest => some ((), rest)
  | _ => none

/-- A character that may stand in text: a tab or anything but a control character. -/
def isText (c : Char) : Bool := c = '\t' || 0x20 ≤ c.toNat && c.toNat ≤ 0x7e || 0x80 ≤ c.toNat

def comment : Reader Unit
  | '#' :: rest => some ((), rest.dropWhile isText)
  | _ => none

def lineEnd : Reader Unit
  | [] => some ((), [])
  | cs => newline cs

/-- What may follow on a line: spaces and a comment. -/
def trailing : Reader Unit := do
  spaces
  let _ ← optional comment
  lineEnd

/-- What may stand between the items of an array: spaces, comments and line ends. -/
def gap : Reader Unit := do
  let _ ← many ((do let _ ← one isSpace) <|> newline <|> comment)

def exactly (test : Char → Bool) : Nat → Reader (List Char)
  | 0 => pure []
  | n + 1 => do
    let c ← one test
    return c :: (← exactly test n)

end Reader

end Tapecraft.Toml
