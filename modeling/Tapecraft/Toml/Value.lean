/-! # Values and tables of a TOML document

A document is a table that grows while it is read. Each table remembers how it came into
being, because that decides how it may be extended: a table is given by one header only,
dotted keys extend only tables that dotted keys made, and a table in braces is closed.
-/
namespace Tapecraft.Toml

/-- How a table came into being. -/
inductive Origin where
  | header
  | passed
  | dotted
  | braces
deriving DecidableEq, Repr

/-- A value of a document. Floats and date-times are only told apart from the rest. -/
inductive Value where
  | string (text : String)
  | integer (value : Int)
  | float
  | boolean (value : Bool)
  | datetime
  | array (items : List Value)
  | table (origin : Origin) (entries : List (String × Value))
  /-- The tables of one repeated header, the latest apart. -/
  | sections (latest : List (String × Value)) (earlier : List (List (String × Value)))

abbrev Entries := List (String × Value)

namespace Entries

def put (entries : Entries) (key : String) (value : Value) : Entries :=
  if (entries.lookup key).isSome then
    entries.map fun e => if e.1 = key then (key, value) else e
  else entries ++ [(key, value)]

/-- Sets a dotted key: the keys it passes through, and the last one. Nothing is set twice,
and the table that receives the value is the one at hand or one that dotted keys made. -/
def assign (value : Value) (last : String) : List String → Entries → Option Entries
  | [], entries =>
    if (entries.lookup last).isSome then none else some (entries ++ [(last, value)])
  | key :: path, entries =>
    match entries.lookup key with
    | none => (assign value last path []).map fun inner => entries.put key (.table .dotted inner)
    | some (.table .dotted inner) =>
      (assign value last path inner).map fun inner => entries.put key (.table .dotted inner)
    | some (.table .passed inner) =>
      if path.isEmpty then none
      else (assign value last path inner).map fun inner => entries.put key (.table .passed inner)
    | some (.sections latest earlier) =>
      if path.isEmpty then none
      else
        (assign value last path latest).map fun latest =>
          entries.put key (.sections latest earlier)
    | some _ => none

/-- Changes the table that a path leads to. Tables that are not there are passed through
into being, and the path of a repeated header leads to its latest table. -/
def within (change : Entries → Option Entries) : List String → Entries → Option Entries
  | [], entries => change entries
  | key :: path, entries =>
    match entries.lookup key with
    | none => (within change path []).map fun inner => entries.put key (.table .passed inner)
    | some (.table .braces _) => none
    | some (.table origin inner) =>
      (within change path inner).map fun inner => entries.put key (.table origin inner)
    | some (.sections latest earlier) =>
      (within change path latest).map fun latest => entries.put key (.sections latest earlier)
    | some _ => none

/-- Begins the table of a header. A table that headers have passed through may still be
given its own header. -/
def beginTable (key : String) (entries : Entries) : Option Entries :=
  match entries.lookup key with
  | none => some (entries.put key (.table .header []))
  | some (.table .passed inner) => some (entries.put key (.table .header inner))
  | some _ => none

def beginSection (key : String) (entries : Entries) : Option Entries :=
  match entries.lookup key with
  | none => some (entries.put key (.sections [] []))
  | some (.sections latest earlier) => some (entries.put key (.sections [] (latest :: earlier)))
  | some _ => none

end Entries

end Tapecraft.Toml
