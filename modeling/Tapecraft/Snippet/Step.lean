import Tapecraft.Snippet.DrainLoop

/-! # Steps between byte values

The texts of the snippet table are made of three kinds of step: adding one, subtracting
one, and a drain loop with step sizes up to 39. Each step leads from a byte to another and
has a weight, which is the length of its text. A drain loop leads nowhere from a byte that
it never drains.
-/
namespace Tapecraft

inductive Step where
  | increment
  | decrement
  | loop (l : DrainLoop)
deriving DecidableEq, Repr

namespace Step

/-- The largest step size of a drain loop. -/
def maxSize : Nat := 39

def Allowed : Step → Prop
  | increment => True
  | decrement => True
  | loop l => 1 ≤ l.drain ∧ l.drain ≤ maxSize ∧ 1 ≤ l.fill ∧ l.fill ≤ maxSize

def result? (x : UInt8) : Step → Option UInt8
  | increment => some (x + 1)
  | decrement => some (x - 1)
  | loop l => l.result? x

def text : Step → String
  | increment => "+"
  | decrement => "-"
  | loop l => l.text

def weight : Step → Nat
  | increment => 1
  | decrement => 1
  | loop l => l.weight

def follow? (x : UInt8) (steps : List Step) : Option UInt8 := steps.foldlM result? x

def texts (steps : List Step) : String := String.join (steps.map text)

def total (steps : List Step) : Nat := steps.foldr (fun s sum => s.weight + sum) 0

@[simp] theorem length_text (s : Step) : s.text.length = s.weight := by
  cases s with
  | increment => rfl
  | decrement => rfl
  | loop l => exact l.length_text

end Step

end Tapecraft
