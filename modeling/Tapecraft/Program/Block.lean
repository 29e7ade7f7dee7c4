import Tapecraft.Machine

/-! # Programs as trees

The brackets of a program group its commands into nested loops. A block is that tree, and
it can be run by walking it, without jumps and without a program counter. A loop tests
its cell once before the first round and then after each round; a test counts as an
executed instruction. Positions count commands from the start of the program.
-/
namespace Tapecraft

inductive Block where
  | done
  | act (a : Action) (rest : Block)
  | loop (body rest : Block)
deriving DecidableEq, Repr

namespace Block
open Machine

def commands : Block → List Command
  | done => []
  | act a rest => .action a :: rest.commands
  | loop body rest => .openLoop :: body.commands ++ .closeLoop :: rest.commands

def size : Block → Nat
  | done => 0
  | act _ rest => rest.size + 1
  | loop body rest => body.size + rest.size + 2

@[simp] theorem length_commands (b : Block) : b.commands.length = b.size := by
  induction b with
  | done => rfl
  | act a rest ih => simp [commands, size, ih]
  | loop body rest ihb ihr =>
    simp only [commands, size, List.cons_append, List.length_cons, List.length_append, ihb, ihr]
    omega

section Walk
variable (inputs : Array Int64) (limits : Limits)

def permit (s : State) : Except Fault Unit :=
  if s.executed < limits.instructions then .ok ()
  else .error (.exceeded .instructions limits.instructions)

def counted (s : State) : State := { s with executed := s.executed + 1 }

def settle (s : State) : Except Fault State :=
  if s.tape.touched ≤ limits.cells then .ok (counted s)
  else .error (.exceeded .cells limits.cells)

/-- Executes an action at a position. On the tape it does what the machine does for it. -/
def perform (position : Nat) (a : Action) (s : State) : Except Fault State := do
  permit limits s
  match a with
  | .right => settle limits { s with pointer := s.pointer + 1 }
  | .left => settle limits { s with pointer := s.pointer - 1 }
  | .increment => settle limits (s.store (s.current + 1))
  | .decrement => settle limits (s.store (s.current - 1))
  | .print => settle limits (s.look.emit (.ofUInt8 s.current))
  | .read =>
    match inputs[s.nextInput]? with
    | none => .error (.missingInput position)
    | some value =>
      settle limits
        { s.store value.toUInt64.toUInt8 with nextInput := (s.nextInput + 1) % inputs.size }

/-- Repeats the body of a loop until the test after it finds zero. Each round executes at
least its test, so a bound on the instructions also bounds the rounds. -/
def rounds (body : State → Except Fault State) : Nat → State → Except Fault State
  | 0, _ => .error (.exceeded .instructions limits.instructions)
  | bound + 1, s => do
    let t ← body s
    permit limits t
    if t.current = 0 then settle limits t.look else rounds body bound (counted t.look)

def walk : Block → Nat → State → Except Fault State
  | done, _, s => .ok s
  | act a rest, position, s => do
    let t ← perform inputs limits position a s
    rest.walk (position + 1) t
  | loop body rest, position, s => do
    permit limits s
    if s.current = 0 then
      rest.walk (position + body.size + 2) (counted s.look)
    else
      let t ← settle limits s.look
      let u ← rounds limits (body.walk (position + 1)) limits.instructions t
      rest.walk (position + body.size + 2) u

def run (b : Block) : Except Fault Outcome := do
  let s ← walk inputs limits b 0 {}
  return s.outcome

end Walk

end Block

end Tapecraft
