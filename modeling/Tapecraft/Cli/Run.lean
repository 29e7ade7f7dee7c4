import Tapecraft.Cli.Grammar
import Tapecraft.Cli.Report
import Tapecraft.Config
import Tapecraft.Inputs
import Tapecraft.Program.Listing
import Tapecraft.RunLength
import Tapecraft.Synthesis

/-! # Carrying out a job

A job first needs the ceilings, so that a faulty configuration stops every job. To
execute a program, the inputs are read, then the text is compiled, then the program runs.
The first stage that fails decides the failure, and nothing is printed then.
-/
namespace Tapecraft.Cli

/-- The formats of other programs that a job is given in or asked for. -/
structure Formats where
  config : Config.Reader
  /-- An outcome as a JSON text, or why there is none. -/
  json : Outcome → Except String String

inductive Failure where
  | config (e : ConfigError)
  | inputs (e : Inputs.Malformed)
  | compilation (e : BracketError)
  | execution (e : Fault)
  | json (reason : String)
  | synthesis (e : Synthesis.WideChar)
deriving DecidableEq, Repr

namespace Failure

/-- A failure and what led to it, from the stage that it happened in on. -/
def chain : Failure → List String
  | config e => [e.message, e.reason]
  | inputs e => ["input parsing error", e.message]
  | compilation e => ["compilation error", e.message]
  | execution e => ["execution error", e.message]
  | json reason => [reason]
  | synthesis e => [e.message]

def message (f : Failure) : String := ": ".intercalate f.chain

end Failure

structure Result where
  output : String
  summed : Option Outcome := none
deriving DecidableEq, Repr

inductive Stage where
  | finished (r : Result)
  | compiled (p : Program) (inputs : List Int64) (limits : Limits) (json : Bool)

/-- The inputs that a text gives. Without a text there are none. -/
def inputsOf : Option String → Except Failure (List Int64)
  | none => .ok []
  | some text => (Inputs.parse text).mapError .inputs

def Job.inputs : Job → Except Failure (List Int64)
  | exec input _ _ _ => inputsOf input
  | _ => .ok []

def prepare (limits : Limits) (inputs : List Int64) : Job → Except Failure Stage
  | .exec _ json disassemble program => do
    let p ← (Program.compile program).mapError .compilation
    if disassemble then return .finished ⟨p.listing, none⟩
    return .compiled p inputs limits json
  | .encode words => do
    let text := " ".intercalate words
    let program ← (Synthesis.program Table.shortest.get text).mapError .synthesis
    return .finished ⟨program ++ "\n", none⟩
  | .shorten program => return .finished ⟨RunLength.shorten program ++ "\n", none⟩

def Stage.complete (formats : Formats) : Stage → Except Failure Result
  | finished r => .ok r
  | compiled p inputs limits json => do
    let o ← (p.run inputs.toArray limits).mapError .execution
    if json then return ⟨(← (formats.json o).mapError .json) ++ "\n", none⟩
    return ⟨shown o.output ++ "\n", some o⟩

def run (formats : Formats) (files : Files) (i : Invocation) : Except Failure Result := do
  let limits ← (Config.load formats.config files i.config).mapError .config
  let inputs ← i.job.inputs
  (← prepare (i.override limits) inputs i.job).complete formats

end Tapecraft.Cli
