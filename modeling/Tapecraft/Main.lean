import Tapecraft.Cli.Arguments
import Tapecraft.Cli.Formats
import Tapecraft.Cli.Terminal
import Tapecraft.Text.Control

/-! # The command-line program

The program with the real files, clock and terminal, the formats of its configuration and its
reports, and the way its arguments are matched.
-/
namespace Tapecraft.Cli

def readErrorOf : IO.Error → ReadError
  | .noFileOrDirectory .. => .notFound
  | .inappropriateType _ code _ => if code = 21 then .isADirectory else .notADirectory
  | .invalidArgument .. => .nameTooLong
  | e => .other (toString e)

def readFile (path : String) : IO (Except ReadError String) := do
  try
    let bytes ← IO.FS.readBinFile path
    return (String.fromUTF8? bytes).elim (.error .notText) .ok
  catch e => return .error (readErrorOf e)

/-- Whether a path leads anywhere. -/
def leadsSomewhere (path : String) : IO Bool := do
  try
    let _ ← IO.FS.realPath path
    return true
  catch _ => return false

instance : Terminal IO where
  isThere := leadsSomewhere
  readText := readFile
  clock := IO.monoNanosNow
  print := IO.print
  report := IO.eprintln
  log message := IO.eprintln ("ERROR bfkit: " ++ spelled message)

def usage : String :=
  "Usage: bfkit [OPTIONS] <COMMAND>\n\n" ++
  "Commands:\n" ++
  "  exec      compile and run a program: [--input LIST] [--json] [--disassemble] PROGRAM\n" ++
  "  encode    write a program that prints a text: TEXT...\n" ++
  "  shorten   abbreviate a program by run lengths: PROGRAM\n\n" ++
  "Options:\n" ++
  "  --config FILE          configuration file (bfkit.toml if there is one)\n" ++
  "  --max-instructions N   ceiling on executed instructions\n" ++
  "  --max-memory-cells N   ceiling on touched cells\n" ++
  "  -h, --help             this text\n"

end Tapecraft.Cli

def main (arguments : List String) : IO UInt32 := do
  match Tapecraft.Cli.parse Tapecraft.Cli.Grammar.matchArguments arguments with
  | .ok i => Tapecraft.Cli.carryOut (Tapecraft.Cli.Formats.usual fun _ => "") i
  | .error e =>
    if e.exitCode = 0 then IO.print Tapecraft.Cli.usage else IO.eprint Tapecraft.Cli.usage
    return e.exitCode.toUInt32
