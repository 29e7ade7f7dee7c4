import Tapecraft.Command
import Tapecraft.Instruction

/-! # Programs and their compilation

Compilation reads program text from left to right with a stack of the loops still
open. A closing bracket knows where its loop began, so it emits its own jump and
fills in the target of the opening one. Text is accepted when its brackets balance.
-/
namespace Tapecraft

structure Program where
  source : String
  code : Array Instruction
deriving DecidableEq, Repr

inductive BracketError where
  /-- The closing bracket at this character position closes nothing. -/
  | unmatchedClose (position : Nat)
  /-- So many opening brackets are never closed. -/
  | unmatchedOpen (count : Nat)
deriving DecidableEq, Repr

def BracketError.message : BracketError → String
  | unmatchedClose position =>
    "closing ']' at position " ++ position.repr ++ " has no matching '['"
  | unmatchedOpen count => "there are " ++ count.repr ++ " more '[' than ']'"

def Action.instruction : Action → Instruction
  | right => .move 1
  | left => .move (-1)
  | increment => .add 1
  | decrement => .add (-1)
  | print => .print
  | read => .read

namespace Program

/-- A program assembled by hand. Its jump targets are taken as they are; a target
beyond the last instruction ends the run. -/
def ofInstructions (code : Array Instruction) : Program := ⟨"", code⟩

/-- The state of compilation: the instructions emitted so far, and the indices of the
loops still open, innermost first. -/
structure Scan where
  code : Array Instruction := #[]
  openLoops : List Nat := []

/-- Compiles one command. Only a closing bracket with no loop open has no result. The
placeholder target of an opening bracket is replaced when its loop is closed. -/
def Scan.command (s : Scan) : Command → Option Scan
  | .action a => some { s with code := s.code.push a.instruction }
  | .openLoop =>
    let start := s.code.size
    some { code := s.code.push (.jumpIfZero 0), openLoops := start :: s.openLoops }
  | .closeLoop =>
    match s with
    | ⟨_, []⟩ => none
    | ⟨code, start :: outer⟩ =>
      let size := code.size
      some
        { code := (code.push (.jumpIfNonzero (start + 1))).setIfInBounds start
            (.jumpIfZero (size + 1))
          openLoops := outer }

def scan : List Char → Nat → Scan → Except BracketError Scan
  | [], _, s => .ok s
  | ch :: rest, position, s =>
    match Command.ofChar? ch with
    | none => scan rest (position + 1) s
    | some c =>
      match s.command c with
      | none => .error (.unmatchedClose position)
      | some t => scan rest (position + 1) t

def compile (source : String) : Except BracketError Program := do
  let s ← scan source.toList 0 {}
  if s.openLoops.isEmpty then
    return ⟨source, s.code⟩
  else
    throw (.unmatchedOpen s.openLoops.length)

end Program

end Tapecraft
