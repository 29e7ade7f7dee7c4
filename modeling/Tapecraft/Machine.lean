import Tapecraft.Limits
import Tapecraft.Program.Basic
import Tapecraft.Tape

/-! # The machine

A run starts at instruction zero with the pointer at cell zero of a blank tape, and
executes one instruction after the other until the program counter leaves the code or a
`halt` is executed. Two ceilings cut a run short. The instruction ceiling is looked at
before each instruction. The cell ceiling is looked at after each instruction that lets
the run go on to the one behind it, so not after a jump that is taken.
-/
namespace Tapecraft

inductive Resource where
  | instructions
  | cells
deriving DecidableEq, Repr

def Resource.label : Resource → String
  | instructions => "instructions"
  | cells => "memory cells"

/-- Why a run has no outcome. -/
inductive Fault where
  /-- The instruction at this index asked for input, and there is none at all. -/
  | missingInput (position : Nat)
  | exceeded (resource : Resource) (limit : Nat)
deriving DecidableEq, Repr

def Fault.message : Fault → String
  | missingInput position =>
    "input instruction at position " ++ position.repr ++ " but no inputs were given"
  | exceeded resource limit =>
    "program exceeded the maximum number of " ++ resource.label ++ " allowed (" ++ limit.repr ++ ")"

structure Outcome where
  /-- The printed cells, each as the character with its value. -/
  output : String
  executed : Nat
  touched : Nat
deriving DecidableEq, Repr

namespace Machine

structure State where
  counter : Nat := 0
  pointer : Int64 := 0
  tape : Tape := {}
  output : String := ""
  executed : Nat := 0
  nextInput : Nat := 0

namespace State

def current (s : State) : UInt8 := s.tape.cell s.pointer

@[inline] def goTo (s : State) (counter : Nat) : State :=
  { s with counter := counter, executed := s.executed + 1 }

/-- Records that the cell under the pointer was looked at. -/
@[inline] def look (s : State) : State := { s with tape := s.tape.touch s.pointer }

@[inline] def store (s : State) (value : UInt8) : State :=
  { s with tape := s.tape.write s.pointer value }

@[inline] def emit (s : State) (c : Char) : State := { s with output := s.output.push c }

def outcome (s : State) : Outcome := ⟨s.output, s.executed, s.tape.touched⟩

end State

inductive Effect where
  | next (s : State)
  | jump (s : State)
  | stop (s : State)
  | noInput

/-- Executes one instruction. The inputs are read in order and from the start again when
they are used up; a value is cut to its low eight bits. -/
def execute (inputs : Array Int64) (i : Instruction) (s : State) : Effect :=
  match i with
  | .move displacement =>
    .next ({ s with pointer := s.pointer + displacement }.goTo (s.counter + 1))
  | .add delta => .next ((s.store (s.current + delta.toUInt8)).goTo (s.counter + 1))
  | .print => .next ((s.emit (.ofUInt8 s.current)).look.goTo (s.counter + 1))
  | .read =>
    match inputs[s.nextInput]? with
    | none => .noInput
    | some value =>
      let stored := s.store value.toUInt64.toUInt8
      .next ({ stored with nextInput := (s.nextInput + 1) % inputs.size }.goTo (s.counter + 1))
  | .jumpIfZero target =>
    if s.current = 0 then .jump (s.look.goTo target) else .next (s.look.goTo (s.counter + 1))
  | .jumpIfNonzero target =>
    if s.current = 0 then .next (s.look.goTo (s.counter + 1)) else .jump (s.look.goTo target)
  | .halt => .stop (s.goTo s.counter)

/-- Runs from a state while the budget of instructions lasts. The end of the code is found
before the budget is looked at. -/
def runFrom (code : Array Instruction) (inputs : Array Int64) (limits : Limits) :
    Nat → State → Except Fault Outcome
  | 0, s =>
    match code[s.counter]? with
    | none => .ok s.outcome
    | some _ => .error (.exceeded .instructions limits.instructions)
  | budget + 1, s =>
    match code[s.counter]? with
    | none => .ok s.outcome
    | some i =>
      match execute inputs i s with
      | .next t =>
        if limits.cells < t.tape.touched then .error (.exceeded .cells limits.cells)
        else runFrom code inputs limits budget t
      | .jump t => runFrom code inputs limits budget t
      | .stop t => .ok t.outcome
      | .noInput => .error (.missingInput s.counter)

end Machine

def Program.run (p : Program) (inputs : Array Int64) (limits : Limits) :
    Except Fault Outcome :=
  Machine.runFrom p.code inputs limits limits.instructions {}

end Tapecraft
