/-! # Drain loops

A drain loop empties the current cell in equal steps and, for each step, changes the
right neighbour by a fixed amount. It ends on that neighbour, which is expected to be
zero at the start. Draining downwards fills upwards and the other way round.
-/
namespace Tapecraft

inductive Direction where
  | down
  | up
deriving DecidableEq, Repr

/-- A loop that changes the current cell by `drain` and its right neighbour by `fill`,
the opposite way, until the current cell is zero. -/
structure DrainLoop where
  direction : Direction
  drain : Nat
  fill : Nat
deriving DecidableEq, Repr

def repeated (count : Nat) (c : Char) : String := .ofList (List.replicate count c)

@[simp] theorem length_repeated (count : Nat) (c : Char) : (repeated count c).length = count := by
  simp [repeated]

/-- How often `step` has to be added to a byte until it becomes zero, when that ever
happens. The multiples of a byte repeat after 256, so the search is complete. -/
def drainCount (x step : UInt8) : Option Nat :=
  (List.range 256).find? fun k => x + UInt8.ofNat k * step = 0

namespace DrainLoop

def drainStep (l : DrainLoop) : UInt8 :=
  match l.direction with
  | .down => -UInt8.ofNat l.drain
  | .up => UInt8.ofNat l.drain

def filled (l : DrainLoop) (rounds : Nat) : UInt8 :=
  match l.direction with
  | .down => UInt8.ofNat (rounds * l.fill)
  | .up => -UInt8.ofNat (rounds * l.fill)

/-- The value that the loop turns a byte into. There is none when the loop never ends. -/
def result? (l : DrainLoop) (x : UInt8) : Option UInt8 := (drainCount x l.drainStep).map l.filled

def text (l : DrainLoop) : String :=
  match l.direction with
  | .down => "[" ++ repeated l.drain '-' ++ ">" ++ repeated l.fill '+' ++ "<]>"
  | .up => "[" ++ repeated l.drain '+' ++ ">" ++ repeated l.fill '-' ++ "<]>"

def weight (l : DrainLoop) : Nat := l.drain + l.fill + 5

@[simp] theorem length_text (l : DrainLoop) : l.text.length = l.weight := by
  obtain ⟨direction, drain, fill⟩ := l
  have hopen : "[".length = 1 := rfl
  have hmove : ">".length = 1 := rfl
  have hclose : "<]>".length = 3 := rfl
  cases direction <;>
    simp only [text, weight, String.length_append, length_repeated, hopen, hmove, hclose] <;> omega

end DrainLoop

end Tapecraft
