import Tapecraft.Snippet.Step

/-! # Plans

A plan is a program for printing a text, in the steps between byte values, the move to a
fresh cell and the printing itself. It is run on a single byte, which starts at zero and
is zero again on a fresh cell.
-/
namespace Tapecraft.Synthesis

inductive Move where
  | step (s : Step)
  | fresh
  | print
deriving DecidableEq, Repr

namespace Move

def text : Move → String
  | step s => s.text
  | fresh => ">"
  | print => "."

end Move

abbrev Plan := List Move

namespace Plan

def Allowed (plan : Plan) : Prop := ∀ s, .step s ∈ plan → s.Allowed

def text (plan : Plan) : String := String.join (plan.map Move.text)

/-- What a plan prints when it is run from a byte. Nothing, if one of its loops never ends. -/
def printed? : Plan → UInt8 → Option (List UInt8)
  | [], _ => some []
  | .step s :: rest, x => do printed? rest (← s.result? x)
  | .fresh :: rest, _ => printed? rest 0
  | .print :: rest, x => do return x :: (← printed? rest x)

end Plan

end Tapecraft.Synthesis
