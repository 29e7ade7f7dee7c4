import Tapecraft.Snippet.Table
import Tapecraft.Text.Hidden

/-! # Programs that print a text

A cell holds one of 256 values, so a text can be printed when its characters lie below
U+0100. Each character is reached from the value printed before it, or, where that is
shorter even with the move, from the fresh cell on the right.
-/
namespace Tapecraft.Synthesis

/-- Why a text has no program: this character, at this position, fits in no cell. -/
structure WideChar where
  char : Char
  position : Nat
deriving DecidableEq, Repr

def WideChar.message (e : WideChar) : String :=
  "character " ++ quotedChar e.char ++ " at position " ++ e.position.repr ++
    " does not fit in a cell"

def cellOf? (c : Char) : Option UInt8 := if c.toNat < 256 then some (.ofNat c.toNat) else none

def approach (table : Table) (last target : UInt8) : String :=
  if table.length last target ≤ table.length 0 target + 1 then table.text last target
  else ">" ++ table.text 0 target

/-- Extends a program by the printing of further characters, from a position on. -/
def extend (table : Table) : List Char → Nat → UInt8 → String → Except WideChar String
  | [], _, _, program => .ok program
  | c :: rest, position, last, program =>
    match cellOf? c with
    | none => .error ⟨c, position⟩
    | some target =>
      extend table rest (position + 1) target ((program ++ approach table last target).push '.')

def program (table : Table) (text : String) : Except WideChar String :=
  extend table text.toList 0 0 ""

end Tapecraft.Synthesis
