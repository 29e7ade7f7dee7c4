import Tapecraft.Toml.Number

/-! # Documents

A document is read line by line into one table. A line is empty, a comment, a header or a
key with its value; an array may go on over several lines. A document with any fault has
no value at all.
-/
namespace Tapecraft.Toml

namespace Reader

/-- An array of given items. A comma may stand after the last one. -/
def array (item : Reader Value) : Reader Value := do
  char '['
  let spaced : Reader Value := do
    gap
    let v ← item
    gap
    return v
  let first ← optional spaced
  let items ← match first with
    | none => pure []
    | some v =>
      let more ← many (do char ','; spaced)
      let _ ← optional (char ',')
      pure (v :: more)
  gap
  char ']'
  return .array items

def bracedEntry (item : Reader Value) : Reader ((List String × String) × Value) := do
  let path ← keyPath
  char '='
  spaces
  let v ← item
  spaces
  return (path, v)

/-- A table in braces, on one line and without a comma after the last entry. -/
def braced (item : Reader Value) : Reader Value := do
  char '{'
  let first ← optional (bracedEntry item)
  let pairs ← match first with
    | none => pure []
    | some e => pure (e :: (← many (do char ','; bracedEntry item)))
  spaces
  char '}'
  let entries : Option Entries :=
    pairs.foldlM (fun entries e => Entries.assign e.2 e.1.2 e.1.1 entries) []
  match entries with
  | none => failure
  | some entries => return .table .braces entries

def scalar : Reader Value := do
  match ← peek? with
  | some '"' | some '\'' => return .string (← string)
  | some 't' => literal "true"; return .boolean true
  | some 'f' => literal "false"; return .boolean false
  | _ => number

def value : Nat → Reader Value
  | 0 => scalar
  | depth + 1 => array (value depth) <|> braced (value depth) <|> scalar

end Reader

structure Draft where
  place : List String := []
  entries : Entries := []

namespace Draft
open Reader

def accept (changed : Option Draft) : Reader Draft := fun cs => changed.map (·, cs)

def entryLine (d : Draft) : Reader Draft := do
  let (path, last) ← keyPath
  char '='
  spaces
  let v ← value (nestingLimit - 1)
  trailing
  accept ((Entries.within (Entries.assign v last path) d.place d.entries).map fun entries =>
    { d with entries })

def headerLine (d : Draft) : Reader Draft := do
  char '['
  let (path, last) ← keyPath
  char ']'
  trailing
  accept ((Entries.within (Entries.beginTable last) path d.entries).map fun entries =>
    { place := path ++ [last], entries })

def repeatedHeaderLine (d : Draft) : Reader Draft := do
  literal "[["
  let (path, last) ← keyPath
  literal "]]"
  trailing
  accept ((Entries.within (Entries.beginSection last) path d.entries).map fun entries =>
    { place := path ++ [last], entries })

def line (d : Draft) : Reader Draft := fun cs =>
  match cs with
  | '#' :: _ => (do comment; lineEnd; return d : Reader Draft) cs
  | '[' :: '[' :: _ => repeatedHeaderLine d cs
  | '[' :: _ => headerLine d cs
  | '\n' :: _ | '\r' :: _ => (do newline; return d : Reader Draft) cs
  | _ => entryLine d cs

/-- All lines. There are at most as many as characters, so the first text bounds them. -/
def lines : List Char → Draft → List Char → Option Draft
  | bound, d, cs =>
    match cs.dropWhile isSpace with
    | [] => some d
    | c :: rest =>
      match bound with
      | [] => none
      | _ :: bound =>
        match line d (c :: rest) with
        | none => none
        | some (next, rest) => lines bound next rest

end Draft

/-- The entries of a document. A byte order mark at its start is skipped. -/
def parse? (text : String) : Option Entries :=
  let cs := match text.toList with
    | '\ufeff' :: rest => rest
    | cs => cs
  (Draft.lines cs {} cs).map Draft.entries

end Tapecraft.Toml
