import Tapecraft.Machine
import Tapecraft.Text.Blank
import Tapecraft.Text.Decimal

/-! # Reports

How the outcome of a run is shown: its output with the end made visible, and a summary with the
times that were taken.
-/
namespace Tapecraft.Cli

/-- The output of a run as it is shown. An empty output is named, and blanks at the end are
made visible. -/
def shown (output : String) : String :=
  match output.toList.getLast? with
  | none => "No output"
  | some c => if isBlank c then output ++ "<EOF>" else output

/-- How long compilation and execution took, in nanoseconds. -/
structure Timing where
  compilation : Nat
  execution : Nat

def durationText (nanoseconds : Nat) : String :=
  let (unit, name) :=
    if 1000000000 ≤ nanoseconds then (1000000000, "s")
    else if 1000000 ≤ nanoseconds then (1000000, "ms")
    else if 1000 ≤ nanoseconds then (1000, "µs")
    else (1, "ns")
  let hundredths := (nanoseconds * 100 + unit / 2) / unit
  (hundredths / 100).repr ++ "." ++ Decimal.padded 2 (hundredths % 100) ++ name

def summary (o : Outcome) (t : Timing) : List String :=
  ["  Cells used:        " ++ o.touched.repr,
    "  Instructions:      " ++ o.executed.repr,
    "  Compilation in:    " ++ durationText t.compilation,
    "  Execution in:      " ++ durationText t.execution,
    "  Total:             " ++ durationText (t.compilation + t.execution)]

end Tapecraft.Cli
