import Tapecraft.Cli.Run

/-! # A job in its surroundings

What the program does around a job: it loads the configuration, looks at the clock, and
writes. Nothing is written to the output before the job is done. The surroundings are a
parameter, so that the same program runs for real and in a session of which everything is
known.
-/
namespace Tapecraft.Cli

/-- What the surroundings of the program offer. -/
class Terminal (m : Type → Type) where
  isThere : String → m Bool
  readText : String → m (Except ReadError String)
  /-- The time in nanoseconds. -/
  clock : m Nat
  print : String → m Unit
  report : String → m Unit
  /-- Hands an error to the log, which writes it in its own way. -/
  log : String → m Unit

section Jobs
variable {m : Type → Type} [Monad m] [Terminal m]

def fail (f : Failure) : m UInt32 := do
  Terminal.log f.message
  return 1

/-- Loads the ceilings. Whether the default file is there is asked only where it would be read. -/
def configure (reader : Config.Reader) (path : Option String) : m (Except ConfigError Limits) := do
  let isThere ← if path.isNone then Terminal.isThere Config.defaultPath else pure true
  match Config.target isThere path with
  | none => return .ok (Config.filled {})
  | some file => return Config.loadFrom reader file (← Terminal.readText file)

def carryOut (formats : Formats) (i : Invocation) : m UInt32 := do
  match ← configure formats.config i.config with
  | .error e => fail (.config e)
  | .ok limits =>
    match i.job.inputs with
    | .error f => fail f
    | .ok inputs =>
      let preparation ← Terminal.clock
      match prepare (i.override limits) inputs i.job with
      | .error f => fail f
      | .ok stage =>
        let prepared ← Terminal.clock
        let start ← Terminal.clock
        match stage.complete formats with
        | .error f => fail f
        | .ok r =>
          let done ← Terminal.clock
          Terminal.print r.output
          match r.summed with
          | none => return 0
          | some o =>
            (summary o ⟨prepared - preparation, done - start⟩).forM Terminal.report
            return 0

end Jobs

/-- A session of which everything is known: the files, what the clock shows each time, and what
has been written so far. -/
structure Session where
  files : Files
  times : Nat → Nat
  looks : Nat := 0
  output : String := ""
  reports : List String := []
  logged : List String := []

instance : Terminal (StateM Session) where
  isThere path := do return (← get).files.isThere path
  readText path := do return (← get).files.read path
  clock := modifyGet fun s => (s.times s.looks, { s with looks := s.looks + 1 })
  print text := modify fun s => { s with output := s.output ++ text }
  report line := modify fun s => { s with reports := s.reports ++ [line] }
  log message := modify fun s => { s with logged := s.logged ++ [message] }

structure Ending where
  code : UInt32
  output : String
  reports : List String
  logged : List String
deriving DecidableEq, Repr

def perform (formats : Formats) (files : Files) (times : Nat → Nat) (i : Invocation) : Ending :=
  let (code, s) := (carryOut formats i : StateM Session UInt32).run { files, times }
  ⟨code, s.output, s.reports, s.logged⟩

end Tapecraft.Cli
