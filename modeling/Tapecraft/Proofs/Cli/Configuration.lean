import Mathlib
import Tapecraft.Config

/-! # What a configuration says

A configuration is read from the file that is asked for, and otherwise from the default file if
there is anything at its path. It is an error if that file cannot be read or its text is no
configuration; if there is no file to read, no ceiling is given.
-/
namespace Tapecraft.Config

inductive Chosen (files : Files) : Option String → String → Prop
  | named (path : String) : Chosen files (some path) path
  | default (h : files.isThere defaultPath = true) : Chosen files none defaultPath

/-- What the configuration gives of the ceilings. -/
inductive Configured (reader : Reader) (files : Files) (path : Option String) : Given → Prop
  | missing (hpath : path = none) (h : files.isThere defaultPath = false) :
      Configured reader files path ⟨none, none⟩
  | written {file text : String} {given : Given} (hfile : Chosen files path file)
      (hread : files.read file = .ok text) (h : reader text = .ok given) :
      Configured reader files path given

inductive Unloadable (reader : Reader) (files : Files) (path : Option String) : ConfigError → Prop
  | unreadable {file : String} {cause : ReadError} (hfile : Chosen files path file)
      (hread : files.read file = .error cause) : Unloadable reader files path (.read file cause)
  | invalid {file text reason : String} (hfile : Chosen files path file)
      (hread : files.read file = .ok text) (h : reader text = .error reason) :
      Unloadable reader files path (.parse file reason)

section Load
variable {reader : Reader} {files : Files} {path : Option String}

theorem Chosen.load_eq {file : String} (h : Chosen files path file) :
    load reader files path = loadFrom reader file (files.read file) := by
  cases h with
  | named path => rfl
  | default hthere => simp [load, target, hthere]

theorem Configured.load_eq {given : Given} (h : Configured reader files path given) :
    load reader files path = .ok (filled given) := by
  cases h with
  | missing hpath hmissing =>
    subst hpath
    simp [load, target, hmissing]
  | written hfile hread hgiven => simp [hfile.load_eq, loadFrom, hread, parse, hgiven]

theorem Unloadable.load_eq {e : ConfigError} (h : Unloadable reader files path e) :
    load reader files path = .error e := by
  cases h with
  | unreadable hfile hread => simp [hfile.load_eq, loadFrom, hread]
  | invalid hfile hread hreason => simp [hfile.load_eq, loadFrom, hread, parse, hreason]

theorem Chosen.configured_or_unloadable (reader : Reader) {file : String}
    (h : Chosen files path file) :
    (∃ given, Configured reader files path given) ∨ ∃ e, Unloadable reader files path e := by
  cases hread : files.read file with
  | error cause => exact Or.inr ⟨_, .unreadable h hread⟩
  | ok text =>
    cases hreader : reader text with
    | error reason => exact Or.inr ⟨_, .invalid h hread hreader⟩
    | ok given => exact Or.inl ⟨_, .written h hread hreader⟩

/-- Either the configuration says what the ceilings are, or something stands in the way. -/
theorem configured_or_unloadable (reader : Reader) (files : Files) (path : Option String) :
    (∃ given, Configured reader files path given) ∨ ∃ e, Unloadable reader files path e := by
  cases path with
  | some named => exact (Chosen.named named).configured_or_unloadable reader
  | none =>
    cases hthere : files.isThere defaultPath with
    | false => exact Or.inl ⟨_, .missing rfl hthere⟩
    | true => exact (Chosen.default hthere).configured_or_unloadable reader

end Load

end Tapecraft.Config
