import Tapecraft.Limits
import Tapecraft.Text.Integer

/-! # The command line

What the program may be asked for is declared as data: the options of every job, the three jobs
with their own options, and the words that a job takes. How arguments are matched with such a
declaration is left open here. What a match says is read off by the names in the declaration.
-/
namespace Tapecraft.Cli

inductive UsageError where
  | help
  | nothingGiven
  | missingCommand
  | unknownCommand
  | missingWord
  | unknownArgument
  | missingValue
  | malformedValue
  | repeatedOption
  | unwantedValue
deriving DecidableEq, Repr

def UsageError.exitCode : UsageError → Nat
  | help => 0
  | _ => 2

/-- What an option is, by the value that follows its name. -/
inductive Kind where
  | help
  | switch
  | text
  | path
  | number
deriving DecidableEq, Repr

inductive Value where
  | on
  | text (text : String)
  | number (n : Nat)
deriving DecidableEq, Repr

/-- The value that a text stands for. An empty text is no path. -/
def Kind.read (kind : Kind) (text : String) : Except UsageError Value :=
  match kind with
  | .text => .ok (.text text)
  | .path => if text.isEmpty then .error .missingValue else .ok (.text text)
  | .number =>
    match Integer.readUnsigned text.toList with
    | .ok n => .ok (.number n)
    | .error _ => .error .malformedValue
  | _ => .error .unwantedValue

/-- An option, given by its name behind two hyphens. -/
structure Flag where
  name : String
  kind : Kind
deriving DecidableEq, Repr

/-- What words a job takes: one, or any number from one on. -/
structure Words where
  many : Bool
  /-- Whether a word may begin with a hyphen, as options do. -/
  hyphens : Bool
deriving DecidableEq, Repr

structure Subcommand where
  name : String
  flags : List Flag
  words : Words
deriving DecidableEq, Repr

/-- A declared command line: the options that every job has, and the jobs. -/
structure Grammar where
  flags : List Flag
  subcommands : List Subcommand
deriving DecidableEq, Repr

/-- All options of a job. Help can always be asked for. -/
def Grammar.flagsOf (g : Grammar) (c : Subcommand) : List Flag :=
  ⟨"help", .help⟩ :: (g.flags ++ c.flags)

structure Matches where
  subcommand : String
  values : List (String × Value)
  words : List String
deriving DecidableEq, Repr

abbrev Matcher := Grammar → List String → Except UsageError Matches

namespace Matches

def text? (m : Matches) (name : String) : Option String :=
  match m.values.lookup name with
  | some (.text text) => some text
  | _ => none

def number? (m : Matches) (name : String) : Option Nat :=
  match m.values.lookup name with
  | some (.number n) => some n
  | _ => none

def isOn (m : Matches) (name : String) : Bool := m.values.lookup name == some .on

end Matches

inductive Job where
  | exec (input : Option String) (json disassemble : Bool) (program : String)
  | encode (words : List String)
  | shorten (program : String)
deriving DecidableEq, Repr

structure Invocation where
  config : Option String
  maxInstructions : Option Nat
  maxCells : Option Nat
  job : Job
deriving DecidableEq, Repr

def Invocation.override (i : Invocation) (limits : Limits) : Limits :=
  ⟨i.maxInstructions.getD limits.instructions, i.maxCells.getD limits.cells⟩

namespace Subcommand

def exec : Subcommand where
  name := "exec"
  flags := [⟨"input", .text⟩, ⟨"json", .switch⟩, ⟨"disassemble", .switch⟩]
  words := { many := false, hyphens := true }

def encode : Subcommand where
  name := "encode"
  flags := []
  words := { many := true, hyphens := true }

def shorten : Subcommand where
  name := "shorten"
  flags := []
  words := { many := false, hyphens := true }

end Subcommand

def commandLine : Grammar where
  flags := [⟨"config", .path⟩, ⟨"max-instructions", .number⟩, ⟨"max-memory-cells", .number⟩]
  subcommands := [.exec, .encode, .shorten]

def Job.ofMatches (m : Matches) : Except UsageError Job :=
  match m.subcommand, m.words with
  | "exec", program :: _ =>
    .ok (.exec (m.text? "input") (m.isOn "json") (m.isOn "disassemble") program)
  | "encode", words => .ok (.encode words)
  | "shorten", program :: _ => .ok (.shorten program)
  | "exec", [] => .error .missingWord
  | "shorten", [] => .error .missingWord
  | _, _ => .error .unknownCommand

def Invocation.ofMatches (m : Matches) : Except UsageError Invocation := do
  return ⟨m.text? "config", m.number? "max-instructions", m.number? "max-memory-cells",
    ← Job.ofMatches m⟩

/-- Reads arguments by the declared command line. -/
def parse (matcher : Matcher) (arguments : List String) : Except UsageError Invocation := do
  Invocation.ofMatches (← matcher commandLine arguments)

end Tapecraft.Cli
