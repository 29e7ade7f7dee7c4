import Tapecraft.Cli.Run
import Tapecraft.Toml.Document

/-! # The formats that the program runs with

A configuration is a TOML document, in which the ceilings stand under `limits`: they are named in a
table or stand in this order at the front of an array. Other entries are not looked at, but the
document has to be valid as a whole. An outcome is written as a JSON object on several lines.
-/
namespace Tapecraft.Cli

namespace TomlConfig

def ceiling? : Option Toml.Value → Option (Option Nat)
  | none => some none
  | some (.integer n) => if 0 ≤ n then some (some n.toNat) else none
  | some _ => none

/-- The ceilings given by a value. A date-time has no ceilings in it. -/
def given? : Toml.Value → Option Given
  | .table _ entries => do
    return ⟨← ceiling? (entries.lookup "max_instructions"),
      ← ceiling? (entries.lookup "max_memory_cells")⟩
  | .array items => do return ⟨← ceiling? items[0]?, ← ceiling? items[1]?⟩
  | .datetime => some {}
  | _ => none

def parse? (text : String) : Option Given := do
  match (← Toml.parse? text).lookup "limits" with
  | none => return {}
  | some v => given? v

/-- The reader of TOML documents. Why a text is none is in the words of an explanation. -/
def reader (explain : String → String) : Config.Reader := fun text =>
  (parse? text).elim (.error (explain text)) .ok

end TomlConfig

namespace Json

def escape (c : Char) : List Char :=
  match c with
  | '"' => ['\\', '"']
  | '\\' => ['\\', '\\']
  | '\n' => ['\\', 'n']
  | '\r' => ['\\', 'r']
  | '\t' => ['\\', 't']
  | '\x08' => ['\\', 'b']
  | '\x0c' => ['\\', 'f']
  | c =>
    if c.toNat < 0x20 then
      let digits := Nat.toDigits 16 c.toNat
      ['\\', 'u'] ++ List.replicate (4 - digits.length) '0' ++ digits
    else [c]

def quote (text : String) : String := "\"" ++ .ofList (text.toList.flatMap escape) ++ "\""

def ofOutcome (o : Outcome) : String :=
  "\x7b\n  \"output\": " ++ quote o.output ++ "," ++
    "\n  \"instructions_executed\": " ++ o.executed.repr ++ "," ++
    "\n  \"memory_cells_used\": " ++ o.touched.repr ++ "\n" ++ "\x7d"

end Json

def Formats.usual (explain : String → String) : Formats where
  config := TomlConfig.reader explain
  json o := .ok (Json.ofOutcome o)

end Tapecraft.Cli
