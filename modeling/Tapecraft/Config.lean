import Tapecraft.Limits

/-! # Configuration

The ceilings may be given in a configuration file, and what is not given there has its default.
How such a file is found and read, and what its text says of the ceilings, is left to others.
-/
namespace Tapecraft

inductive ReadError where
  | notFound
  | notADirectory
  | isADirectory
  | nameTooLong
  | notText
  | nulInName
  | other (text : String)
deriving DecidableEq, Repr

def ReadError.message : ReadError → String
  | notFound => "No such file or directory (os error 2)"
  | notADirectory => "Not a directory (os error 20)"
  | isADirectory => "Is a directory (os error 21)"
  | nameTooLong => "File name too long (os error 36)"
  | notText => "stream did not contain valid UTF-8"
  | nulInName => "file name contained an unexpected NUL byte"
  | other text => text

structure Files where
  /-- Whether anything can be found at a path. -/
  isThere : String → Bool
  read : String → Except ReadError String

/-- Why there is no configuration. The reason of a text that is none is in the words of its
reader. -/
inductive ConfigError where
  | read (path : String) (cause : ReadError)
  | parse (path reason : String)
deriving DecidableEq, Repr

namespace ConfigError

def reason : ConfigError → String
  | read _ cause => cause.message
  | parse _ reason => reason

def message : ConfigError → String
  | read path cause => "failed to read " ++ path ++ ": " ++ cause.message
  | parse path reason => "failed to parse " ++ path ++ ": " ++ reason

end ConfigError

structure Given where
  instructions : Option Nat := none
  cells : Option Nat := none
deriving DecidableEq, Repr

namespace Config

/-- A reader of configurations: what the text of one gives, or why it is none. -/
abbrev Reader := String → Except String Given

def filled (given : Given) : Limits :=
  let defaults : Limits := {}
  ⟨given.instructions.getD defaults.instructions, given.cells.getD defaults.cells⟩

def parse (reader : Reader) (path text : String) : Except ConfigError Limits :=
  match reader text with
  | .error reason => .error (.parse path reason)
  | .ok given => .ok (filled given)

def defaultPath : String := "bfkit.toml"

/-- The file to read: the one that is asked for, or the default one if it is there. -/
def target (isThere : Bool) : Option String → Option String
  | some path => some path
  | none => if isThere then some defaultPath else none

def loadFrom (reader : Reader) (path : String) :
    Except ReadError String → Except ConfigError Limits
  | .error cause => .error (.read path cause)
  | .ok text => parse reader path text

def load (reader : Reader) (files : Files) (path : Option String) : Except ConfigError Limits :=
  match target (files.isThere defaultPath) path with
  | none => .ok (filled {})
  | some file => loadFrom reader file (files.read file)

end Config

end Tapecraft
