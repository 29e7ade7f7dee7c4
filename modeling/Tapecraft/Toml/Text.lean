import Tapecraft.Toml.Reader

/-! # Strings and keys

There are four forms of string: in quotes with escapes or in apostrophes without, each on
one line or, with the mark three times, on many. A key is a bare word or a string on one
line, and a dotted key is a path of keys.
-/
namespace Tapecraft.Toml.Reader

def hexValue (c : Char) : Nat :=
  if c.isDigit then c.toNat - '0'.toNat else c.toLower.toNat - 'a'.toNat + 10

def isHexDigit (c : Char) : Bool :=
  c.isDigit || 'a' ≤ c && c ≤ 'f' || 'A' ≤ c && c ≤ 'F'

def codePoint (digits : Nat) : Reader Char := do
  let code := (← exactly isHexDigit digits).foldl (fun n c => 16 * n + hexValue c) 0
  if code.isValidChar then return .ofNat code else failure

def escaped : Reader Char := do
  char '\\'
  match ← one fun _ => true with
  | 'b' => return '\x08'
  | 't' => return '\t'
  | 'n' => return '\n'
  | 'f' => return '\x0c'
  | 'r' => return '\r'
  | '"' => return '"'
  | '\\' => return '\\'
  | 'u' => codePoint 4
  | 'U' => codePoint 8
  | _ => failure

def plain : Reader Char := one fun c => isText c && c != '"' && c != '\\'

def verbatim : Reader Char := one fun c => isText c && c != '\''

def quoted : Reader String := do
  char '"'
  let text ← many (plain <|> escaped)
  char '"'
  return .ofList text

def apostrophed : Reader String := do
  char '\''
  let text ← many verbatim
  char '\''
  return .ofList text

/-- One or two marks that do not end a string of many lines. -/
def innerMarks (mark : Char) : Reader (List Char) := fun cs =>
  let (run, rest) := cs.span (· == mark)
  if run.length = 1 ∨ run.length = 2 then some (run, rest) else none

/-- The three marks that end a string of many lines, with up to two that still belong
to it. -/
def closingMarks (mark : Char) : Reader (List Char) := fun cs =>
  let run := cs.takeWhile (· == mark)
  let inner := min (run.length - 3) 2
  if run.length < 3 then none else some (run.take inner, cs.drop (inner + 3))

/-- A backslash at the end of a line, with all spaces and line ends that follow. -/
def lineContinuation : Reader (List Char) := do
  char '\\'
  spaces
  newline
  let _ ← many ((do let _ ← one isSpace) <|> newline)
  return []

/-- A string of many lines, of given pieces. A line end right after the opening marks is
dropped. -/
def manyLines (mark : Char) (piece : Reader (List Char)) : Reader String := do
  char mark; char mark; char mark
  let _ ← optional newline
  let text ← many (piece <|> (do newline; return ['\n']) <|> innerMarks mark)
  let inner ← closingMarks mark
  return .ofList (text.flatten ++ inner)

def quotedLines : Reader String :=
  manyLines '"' ((do return [← plain]) <|> lineContinuation <|> (do return [← escaped]))

def apostrophedLines : Reader String := manyLines '\'' (do return [← verbatim])

def string : Reader String := fun cs =>
  match cs with
  | '"' :: '"' :: '"' :: _ => quotedLines cs
  | '"' :: _ => quoted cs
  | '\'' :: '\'' :: '\'' :: _ => apostrophedLines cs
  | _ => apostrophed cs

def isBareKey (c : Char) : Bool := c.isAlphanum || c = '_' || c = '-'

def key : Reader String := do
  match ← peek? with
  | some '"' => quoted
  | some '\'' => apostrophed
  | _ =>
    let first ← one isBareKey
    return .ofList (first :: (← many (one isBareKey)))

def spacedKey : Reader String := do
  spaces
  let k ← key
  spaces
  return k

/-- How deep arrays and tables may be nested, and how long dotted keys may be: less than
this. -/
def nestingLimit : Nat := 80

def keyPath : Reader (List String × String) := do
  let first ← spacedKey
  let more ← many (do char '.'; spacedKey)
  let path := first :: more
  if path.length < nestingLimit then return (path.dropLast, path.getLastD first) else failure

end Tapecraft.Toml.Reader
