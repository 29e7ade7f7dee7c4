import Mathlib
import Tapecraft.Proofs.Cli.Conventions
import Tapecraft.Proofs.Program.Matching

/-! # Arguments that are taken as they stand

Program text often begins with hyphens, as options do. Behind two hyphens by themselves every
argument is a word, whatever it looks like. Without them an argument is a word too if it is made of
command characters, since no name of an option is. The two hyphens are the only program that is lost
in this way.
-/
namespace Tapecraft.Cli

theorem not_mem_characters_of_isAlpha {ch : Char} (h : ch.isAlpha = true) :
    ch ∉ Command.characters := by
  intro hmem
  simp only [Command.characters, List.mem_cons, List.not_mem_nil, or_false] at hmem
  rcases hmem with rfl | rfl | rfl | rfl | rfl | rfl | rfl | rfl <;> simp at h

section Jobs
variable {g : Grammar} {c : Subcommand}

theorem Grammar.WellFormed.not_givesOption (hwf : g.WellFormed) (hc : c ∈ g.subcommands)
    {text : String} (htext : ∀ ch ∈ text.toList, ch ∈ Command.characters) :
    ¬ GivesOption (g.flagsOf c) text := by
  rintro (⟨hf, hlong, -⟩ | ⟨hshort⟩)
  · obtain ⟨letter, hletter, halpha⟩ := (Option.any_eq_true _ _).mp (hwf.spelling c hc _ hf).1
    have hmem := List.mem_of_mem_head? hletter
    exact not_mem_characters_of_isAlpha halpha (htext letter (by simp [hlong, hmem]))
  · exact absurd (htext 'h' (by simp [hshort])) (by decide)

theorem Taken.literal (g : Grammar) (c : Subcommand) :
    Taken g c [c.name, "--"] { literal := true } := .mark .name ⟨rfl, fun _ _ => rfl⟩

theorem Taken.literal_word (text : String) :
    Taken g c [c.name, "--", text] { words := [text], literal := true } := by
  refine (Taken.literal g c).word (Or.inr rfl) fun hopen => ?_
  cases hopen.literal

theorem Taken.literal_words (hmany : c.words.many = true) (words : List String) :
    Taken g c (c.name :: "--" :: words) { words, literal := true } := by
  induction words using List.reverseRecOn with
  | nil => exact Taken.literal g c
  | append_singleton words text ih =>
    refine ih.word (Or.inl hmany) fun hopen => ?_
    cases hopen.literal

theorem Taken.commands (hwf : g.WellFormed) (hc : c ∈ g.subcommands)
    (hhyphens : c.words.hyphens = true) {text : String}
    (htext : ∀ ch ∈ text.toList, ch ∈ Command.characters) (hne : text ≠ "--") :
    Taken g c [c.name, text] { words := [text] } :=
  Taken.name.word (Or.inr rfl) fun _ => .hyphened hhyphens hne (hwf.not_givesOption hc htext)

end Jobs

theorem wellFormed_commandLine : commandLine.WellFormed :=
  ⟨by decide, by decide, by decide, by decide⟩

def plain (job : Job) : Invocation := ⟨none, none, none, job⟩

/-- The job that words stand for when no option is given. -/
def Subcommand.plainJob (c : Subcommand) (words : List String) : Except UsageError Job :=
  Job.ofMatches ⟨c.name, [], words⟩

section Parse
variable {matcher : Matcher} {c : Subcommand} {arguments words : List String} {literal : Bool}

theorem Conventions.parse_eq (h : Conventions matcher) (hc : c ∈ commandLine.subcommands)
    (htaken : Taken commandLine c arguments { words, literal }) (hwords : words ≠ []) :
    parse matcher arguments = (c.plainJob words).map plain := by
  rw [parse, h.matched wellFormed_commandLine hc htaken hwords]
  change (Job.ofMatches ⟨c.name, [], words⟩ >>= fun job => Except.ok (plain job)) =
    (Job.ofMatches ⟨c.name, [], words⟩).map plain
  cases Job.ofMatches ⟨c.name, [], words⟩ <;> rfl

theorem Conventions.parse_mark (h : Conventions matcher) (hc : c ∈ commandLine.subcommands) :
    parse matcher [c.name, "--"] = .error .missingWord := by
  rw [parse, h.missing wellFormed_commandLine hc (Taken.literal _ c) rfl]
  rfl

/-- Program text is read alike with and without the two hyphens in front, if it is not itself
these two. -/
theorem Conventions.parse_commands_iff (h : Conventions matcher)
    (hc : c ∈ commandLine.subcommands) (hhyphens : c.words.hyphens = true) {text : String}
    {job : Job} (hjob : c.plainJob [text] = .ok job)
    (htext : ∀ ch ∈ text.toList, ch ∈ Command.characters) :
    parse matcher [c.name, text] = parse matcher [c.name, "--", text] ↔ text ≠ "--" := by
  have hliteral := h.parse_eq hc (Taken.literal_word text) (List.cons_ne_nil _ _)
  constructor
  · rintro heq rfl
    rw [h.parse_mark hc, hliteral, hjob] at heq
    cases heq
  · intro hne
    have hplain := h.parse_eq hc (.commands wellFormed_commandLine hc hhyphens htext hne)
      (List.cons_ne_nil _ _)
    rw [hplain, hliteral]

/-- Behind two hyphens every text is a program as it stands, and every list of words is a text.
Program text is the same without the hyphens, except when it is just two of them itself. -/
theorem program_text_verbatim (h : Conventions matcher) :
    (∀ program : String,
      parse matcher ["exec", "--", program] = .ok (plain (.exec none false false program)) ∧
      parse matcher ["shorten", "--", program] = .ok (plain (.shorten program))) ∧
    (∀ words : List String, words ≠ [] →
      parse matcher ("encode" :: "--" :: words) = .ok (plain (.encode words))) ∧
    ∀ program : String, (∀ ch ∈ program.toList, ch ∈ Command.characters) →
      (parse matcher ["exec", program] = parse matcher ["exec", "--", program] ↔
        program ≠ "--") ∧
      (parse matcher ["shorten", program] = parse matcher ["shorten", "--", program] ↔
        program ≠ "--") := by
  have hexec : .exec ∈ commandLine.subcommands := by decide
  have hencode : .encode ∈ commandLine.subcommands := by decide
  have hshorten : .shorten ∈ commandLine.subcommands := by decide
  refine ⟨?_, ?_, ?_⟩
  · intro program
    have hliteral (c : Subcommand) := Taken.literal_word (g := commandLine) (c := c) program
    exact ⟨h.parse_eq hexec (hliteral _) (List.cons_ne_nil _ _),
      h.parse_eq hshorten (hliteral _) (List.cons_ne_nil _ _)⟩
  · intro words hwords
    exact h.parse_eq hencode (Taken.literal_words rfl words) hwords
  · intro program htext
    exact ⟨h.parse_commands_iff hexec rfl rfl htext, h.parse_commands_iff hshorten rfl rfl htext⟩

theorem program_text_verbatim_hyphens :
    Conventions Grammar.matchArguments ∧
      parse Grammar.matchArguments ["exec", "--->[-]"] =
        .ok (plain (.exec none false false "--->[-]")) ∧
      parse Grammar.matchArguments ["shorten", "-"] = .ok (plain (.shorten "-")) ∧
      parse Grammar.matchArguments ["encode", "--", "--", "-h", "--json"] =
        .ok (plain (.encode ["--", "-h", "--json"])) := by
  have hconventions := Grammar.conventions_matchArguments
  obtain ⟨hliteral, hencode, hprogram⟩ := program_text_verbatim hconventions
  have hexec := (hprogram "--->[-]" (by simp [Command.characters])).1.mpr (by decide)
  have hshorten := (hprogram "-" (by simp [Command.characters])).2.mpr (by decide)
  exact ⟨hconventions, hexec.trans (hliteral _).1, hshorten.trans (hliteral _).2,
    hencode _ (by simp)⟩

end Parse

end Tapecraft.Cli
