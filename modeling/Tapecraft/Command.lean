/-! # Commands of the tape language

A program text is a list of characters. Eight of them are commands: six actions and the two
brackets of a loop. Every other character is a comment and has no effect.
-/
namespace Tapecraft

/-- A command that acts on the tape by itself. -/
inductive Action where
  | right
  | left
  | increment
  | decrement
  | print
  | read
deriving DecidableEq, Repr

inductive Command where
  | action (a : Action)
  | openLoop
  | closeLoop
deriving DecidableEq, Repr

namespace Command

def toChar : Command → Char
  | action .right => '>'
  | action .left => '<'
  | action .increment => '+'
  | action .decrement => '-'
  | action .print => '.'
  | action .read => ','
  | openLoop => '['
  | closeLoop => ']'

/-- The command a character stands for; none for a comment character. -/
def ofChar? : Char → Option Command
  | '>' => some (action .right)
  | '<' => some (action .left)
  | '+' => some (action .increment)
  | '-' => some (action .decrement)
  | '.' => some (action .print)
  | ',' => some (action .read)
  | '[' => some openLoop
  | ']' => some closeLoop
  | _ => none

@[simp] theorem ofChar?_toChar (c : Command) : ofChar? c.toChar = some c := by
  cases c with
  | action a => cases a <;> rfl
  | openLoop => rfl
  | closeLoop => rfl

theorem ofChar?_eq_some_iff {ch : Char} {c : Command} : ofChar? ch = some c ↔ ch = c.toChar := by
  refine ⟨fun h => ?_, fun h => h ▸ ofChar?_toChar c⟩
  unfold ofChar? at h
  split at h <;> simp only [Option.some.injEq, reduceCtorEq] at h <;> subst h <;> rfl

def ofText (text : List Char) : List Command := text.filterMap ofChar?

@[simp] theorem ofText_append (a b : List Char) : ofText (a ++ b) = ofText a ++ ofText b :=
  List.filterMap_append

end Command

end Tapecraft
