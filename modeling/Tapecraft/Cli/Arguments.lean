import Tapecraft.Cli.Grammar

/-! # Matching arguments

Options may stand before and after the name of the job, and each at most once on either side;
where both give the same option, the side behind the name wins. Where words may begin with a
hyphen, an argument behind the name that does so and is no known option is a word like any
other.

The value of an option is looked at when the next argument has been recognised, which
decides which of two faults is reported.
-/
namespace Tapecraft.Cli

/-- What can be said at a place: before the name of the job its name only, and behind it words. -/
structure Level where
  flags : List Flag
  names : List String
  words : Option Words

namespace Grammar

def names (g : Grammar) : List String := "help" :: g.subcommands.map Subcommand.name

def top (g : Grammar) : Level := ⟨⟨"help", .help⟩ :: g.flags, g.names, none⟩

def level (g : Grammar) (c : Subcommand) : Level := ⟨g.flagsOf c, [], some c.words⟩

def subcommand? (g : Grammar) (name : String) : Option Subcommand :=
  g.subcommands.find? (·.name == name)

end Grammar

def Level.flag? (level : Level) (name : String) : Option Flag := level.flags.find? (·.name == name)

abbrev Values := List (String × Value)

namespace Flag

def put (f : Flag) (values : Values) (value : Except UsageError Value) :
    Except UsageError Values := do
  if (values.lookup f.name).isSome then throw .repeatedOption
  return values ++ [(f.name, ← value)]

def assign (f : Flag) (values : Values) (text : String) : Except UsageError Values :=
  f.put values (f.kind.read text)

def turnOn (f : Flag) (values : Values) : Except UsageError Values :=
  if f.kind = .help then .error .help else f.put values (.ok .on)

end Flag

def Kind.takesValue (kind : Kind) : Bool := kind != .help && kind != .switch

/-- The arguments of one side while they are read. -/
structure Scan where
  values : Values := []
  pending : Option (Flag × Option String) := none
  words : List String := []
  literal : Bool := false

namespace Scan

def awaited? (s : Scan) : Option Flag :=
  match s.pending with
  | some (f, none) => some f
  | _ => none

def settled (s : Scan) : Except UsageError Values :=
  match s.pending with
  | none => .ok s.values
  | some (_, none) => .error .missingValue
  | some (f, some text) => f.assign s.values text

def hasRoom (s : Scan) (level : Level) : Bool :=
  level.words.any fun w => w.many || s.words.isEmpty

def takesHyphens (s : Scan) (level : Level) : Bool :=
  s.hasRoom level && level.words.any Words.hyphens

/-- Whether the words begun go on to the end, whatever they look like. -/
def runsOn (s : Scan) (level : Level) : Bool :=
  (level.words.any fun w => w.many && w.hyphens) && !s.words.isEmpty

/-- Takes a word. The name of a job does not count as one where all arguments are words. -/
def word (s : Scan) (level : Level) (text : String) : Except UsageError Scan :=
  if s.hasRoom level then do
    return { s with values := ← s.settled, pending := none, words := s.words ++ [text] }
  else if level.words.isNone ∧ text ∉ level.names then .error .unknownCommand
  else .error .unknownArgument

def valueOrWord (s : Scan) (level : Level) (text : String) : Except UsageError Scan :=
  match s.awaited? with
  | some f => .ok { s with pending := some (f, some text) }
  | none => s.word level text

def long (s : Scan) (level : Level) (text : String) (body : List Char) : Except UsageError Scan :=
  let (name, value) := body.span (· != '=')
  match level.flag? (.ofList name), value with
  | some f, [] => do
    let values ← s.settled
    if f.kind.takesValue then return { s with values, pending := some (f, none) }
    return { s with values := ← f.turnOn values, pending := none }
  | some f, _ :: value =>
    if f.kind.takesValue then do
      let values ← s.settled
      return { s with values := ← f.assign values (.ofList value), pending := none }
    else .error .unwantedValue
  | none, _ => if s.takesHyphens level then s.valueOrWord level text else .error .unknownArgument

/-- Takes an argument that begins with one hyphen, given by the letters that follow it. The
only letter that is an option asks for help. -/
def short (s : Scan) (level : Level) (text : String) (letters : List Char) :
    Except UsageError Scan :=
  if s.takesHyphens level ∧ letters.any (· != 'h') then s.valueOrWord level text
  else if letters.head? = some 'h' then do
    let _ ← s.settled
    throw .help
  else .error .unknownArgument

def step (level : Level) (s : Scan) (text : String) : Except UsageError Scan :=
  if s.literal ∨ s.runsOn level then s.word level text
  else
    match text.toList with
    | ['-', '-'] => .ok { s with literal := true }
    | '-' :: '-' :: body => s.long level text body
    | '-' :: letter :: letters => s.short level text (letter :: letters)
    | _ => s.valueOrWord level text

end Scan

namespace Grammar

def matchBehind (g : Grammar) (c : Subcommand) (arguments : List String) :
    Except UsageError Matches := do
  let s ← arguments.foldlM (Scan.step (g.level c)) {}
  let values ← s.settled
  if s.words.isEmpty then throw .missingWord
  return ⟨c.name, values, s.words⟩

/-- What asking for help by its own name leads to: help, unless it is asked for something
unknown. -/
def helpError (g : Grammar) : List String → UsageError
  | [] => .help
  | [name] => if name ∈ g.names then .help else .unknownCommand
  | _ => .unknownCommand

/-- Matches arguments from before the name of the job on. -/
def matchFrom (g : Grammar) : Scan → List String → Except UsageError Matches
  | s, [] => do
    let values ← s.settled
    throw (if values.isEmpty then .nothingGiven else .missingCommand)
  | s, text :: rest =>
    if s.literal ∨ s.awaited?.isSome then do g.matchFrom (← s.step g.top text) rest
    else if text = "help" then .error (g.helpError rest)
    else
      match g.subcommand? text with
      | some c => do
        let m ← g.matchBehind c rest
        return { m with values := m.values ++ (← s.settled) }
      | none => do g.matchFrom (← s.step g.top text) rest

/-- The matcher that the program runs with. -/
def matchArguments : Matcher := fun g arguments => g.matchFrom {} arguments

end Grammar

end Tapecraft.Cli
