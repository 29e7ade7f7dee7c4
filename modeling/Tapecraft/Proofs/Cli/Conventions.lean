import Mathlib
import Tapecraft.Cli.Arguments

/-! # The conventions of a command line

How arguments are matched with a declaration is not settled by the declaration. What is relied on
are the usual conventions: behind the name of a job, options are given by their names with two
hyphens in front and their values behind, two hyphens by themselves turn all that follows into
words, and where words may begin with a hyphen, an argument that does so is a word unless it gives
an option. The conventions are stated for one argument after the other and for every declaration,
and the matcher that the program runs with follows them.
-/
namespace Tapecraft.Cli

/-- The names of the jobs are different, and so are those of the options of a job. They all begin
with a letter, and those of options have no equals sign in them. -/
structure Grammar.WellFormed (g : Grammar) : Prop where
  names : g.names.Nodup
  letters : ∀ c ∈ g.subcommands, c.name.toList.head?.any Char.isAlpha = true
  flags : ∀ c ∈ g.subcommands, ((g.flagsOf c).map Flag.name).Nodup
  spelling : ∀ c ∈ g.subcommands, ∀ f ∈ g.flagsOf c,
    f.name.toList.head?.any Char.isAlpha = true ∧ '=' ∉ f.name.toList

/-- The argument gives an option by its name, alone or with a value behind an equals sign, or it
begins with the letter for help. -/
inductive GivesOption (flags : List Flag) (text : String) : Prop
  | long {f : Flag} {rest : List Char} (hf : f ∈ flags)
      (htext : text.toList = '-' :: '-' :: (f.name.toList ++ rest))
      (hrest : ∀ c ∈ rest.head?, c = '=')
  | short {rest : List Char} (htext : text.toList = '-' :: 'h' :: rest)

/-- The argument can be a word of the job where options may stand, too. -/
inductive IsWord (g : Grammar) (c : Subcommand) (text : String) : Prop
  | plain (h : text.toList.head? ≠ some '-')
  | hyphen (h : text = "-")
  | hyphened (hallowed : c.words.hyphens = true) (hne : text ≠ "--")
      (h : ¬ GivesOption (g.flagsOf c) text)

structure Progress where
  values : Values := []
  words : List String := []
  literal : Bool := false

/-- Options can still be given: there were no two hyphens, and no words that go on to the end have
begun. -/
structure Progress.Open (p : Progress) (c : Subcommand) : Prop where
  literal : p.literal = false
  words : c.words.many = true → c.words.hyphens = true → p.words = []

/-- What the arguments from the name of a job on give, one after the other. -/
inductive Taken (g : Grammar) (c : Subcommand) : List String → Progress → Prop
  | name : Taken g c [c.name] {}
  | mark {front : List String} {p : Progress} (h : Taken g c front p) (hopen : p.Open c) :
      Taken g c (front ++ ["--"]) { p with literal := true }
  | switch {front : List String} {p : Progress} {f : Flag} (h : Taken g c front p)
      (hopen : p.Open c) (hf : f ∈ g.flagsOf c) (hkind : f.kind = .switch)
      (hnew : p.values.lookup f.name = none) :
      Taken g c (front ++ ["--" ++ f.name]) { p with values := p.values ++ [(f.name, .on)] }
  | setting {front : List String} {p : Progress} {f : Flag} {text : String} {value : Value}
      (h : Taken g c front p) (hopen : p.Open c) (hf : f ∈ g.flagsOf c)
      (hnew : p.values.lookup f.name = none) (htext : text.toList.head? ≠ some '-')
      (hvalue : f.kind.read text = .ok value) :
      Taken g c (front ++ ["--" ++ f.name, text])
        { p with values := p.values ++ [(f.name, value)] }
  | word {front : List String} {p : Progress} {text : String} (h : Taken g c front p)
      (hroom : c.words.many = true ∨ p.words = []) (htext : p.Open c → IsWord g c text) :
      Taken g c (front ++ [text]) { p with words := p.words ++ [text] }

/-- The matcher follows the conventions for the arguments of every declared job. A job needs at
least one word. -/
structure Conventions (matcher : Matcher) : Prop where
  matched : ∀ {g : Grammar} {c : Subcommand} {arguments : List String} {p : Progress},
    g.WellFormed → c ∈ g.subcommands → Taken g c arguments p → p.words ≠ [] →
    matcher g arguments = .ok ⟨c.name, p.values, p.words⟩
  missing : ∀ {g : Grammar} {c : Subcommand} {arguments : List String} {p : Progress},
    g.WellFormed → c ∈ g.subcommands → Taken g c arguments p → p.words = [] →
    matcher g arguments = .error .missingWord

theorem IsWord.of_hyphen {g : Grammar} {c : Subcommand} {text : String} {letter : Char}
    {letters : List Char} (h : IsWord g c text) (htext : text.toList = '-' :: letter :: letters) :
    c.words.hyphens = true ∧ text ≠ "--" ∧ ¬ GivesOption (g.flagsOf c) text := by
  cases h with
  | plain hplain => simp [htext] at hplain
  | hyphen heq => simp [heq] at htext
  | hyphened hallowed hne hgives => exact ⟨hallowed, hne, hgives⟩

theorem find?_key {α : Type} {key : α → String} {list : List α} (hnodup : (list.map key).Nodup)
    {a : α} (ha : a ∈ list) : list.find? (key · == key a) = some a := by
  cases hfind : list.find? (key · == key a) with
  | none =>
    have hne := List.find?_eq_none.mp hfind a ha
    simp at hne
  | some b =>
    have hkey : key b = key a := by simpa using List.find?_some hfind
    rw [List.inj_on_of_nodup_map hnodup (List.mem_of_find?_eq_some hfind) ha hkey]

namespace Scan
variable {g : Grammar} {c : Subcommand} {s : Scan} {p : Progress} {f : Flag} {text : String}

structure Shows (s : Scan) (p : Progress) : Prop where
  settled : s.settled = .ok p.values
  words : s.words = p.words
  literal : s.literal = p.literal

theorem Shows.awaited? (h : s.Shows p) : s.awaited? = none := by
  have hsettled := h.settled
  unfold Scan.settled at hsettled
  unfold Scan.awaited?
  split at hsettled
  · next hp => simp [hp]
  · cases hsettled
  · next hp => simp [hp]

theorem Shows.hasRoom (h : s.Shows p) (hroom : c.words.many = true ∨ p.words = []) :
    s.hasRoom (g.level c) = true := by
  simpa [Scan.hasRoom, Grammar.level, h.words] using hroom

theorem Shows.isOpen_iff (h : s.Shows p) :
    ¬ (s.literal ∨ s.runsOn (g.level c)) ↔ p.Open c := by
  rw [h.literal]
  constructor
  · intro hnot
    obtain ⟨hliteral, hruns⟩ := not_or.mp hnot
    refine ⟨by simpa using hliteral, fun hmany hhyphens => ?_⟩
    simpa [runsOn, Grammar.level, hmany, hhyphens, h.words] using hruns
  · rintro ⟨hliteral, hwords⟩
    have hruns : s.runsOn (g.level c) = false := by
      simpa [runsOn, Grammar.level, h.words] using hwords
    simp [hliteral, hruns]

theorem Shows.word (h : s.Shows p) (hroom : s.hasRoom (g.level c) = true) (text : String) :
    ∃ t, s.word (g.level c) text = .ok t ∧
      t.Shows { p with words := p.words ++ [text] } := by
  refine ⟨{ s with values := p.values, pending := none, words := s.words ++ [text] }, ?_, rfl,
    by rw [h.words], h.literal⟩
  simp [Scan.word, hroom, h.settled, bind, Except.bind, pure, Except.pure]

theorem Shows.valueOrWord_eq (h : s.Shows p) (text : String) :
    s.valueOrWord (g.level c) text = s.word (g.level c) text := by
  simp [Scan.valueOrWord, h.awaited?]

theorem flag?_eq_none {body : List Char} (htext : text.toList = '-' :: '-' :: body)
    (h : ¬ GivesOption (g.flagsOf c) text) :
    (g.level c).flag? (.ofList (body.takeWhile (· != '='))) = none := by
  cases hf : (g.level c).flag? (.ofList (body.takeWhile (· != '='))) with
  | none => rfl
  | some f =>
    have hname : f.name.toList = body.takeWhile (· != '=') := by
      have hfound : f.name = .ofList (body.takeWhile (· != '=')) := by
        simpa using List.find?_some hf
      rw [hfound, String.toList_ofList]
    have hsplit : text.toList =
        '-' :: '-' :: (f.name.toList ++ body.dropWhile (· != '=')) := by
      rw [htext, hname, List.takeWhile_append_dropWhile]
    refine absurd (.long (List.mem_of_find?_eq_some hf) hsplit ?_) h
    intro ch hch
    have hhead := List.head?_dropWhile_not (· != '=') body
    rw [hch] at hhead
    simpa using hhead

theorem Shows.takesHyphens (h : s.Shows p) (hroom : c.words.many = true ∨ p.words = [])
    (hhyphens : c.words.hyphens = true) : s.takesHyphens (g.level c) = true := by
  rw [Scan.takesHyphens, h.hasRoom hroom]
  simpa [Grammar.level] using hhyphens

theorem Shows.step_word (h : s.Shows p) (hroom : c.words.many = true ∨ p.words = [])
    (htext : p.Open c → IsWord g c text) :
    s.step (g.level c) text = s.word (g.level c) text := by
  unfold step
  split
  · rfl
  · next hopen =>
    have hword := htext (h.isOpen_iff.mp hopen)
    split
    · next hmark =>
      have hne := (hword.of_hyphen hmark).2.1
      exact absurd (String.toList_inj.mp (hmark.trans (by decide))) hne
    · next body _ hbody =>
      obtain ⟨hallowed, -, hgives⟩ := hword.of_hyphen hbody
      simp [long, List.span_eq_takeWhile_dropWhile, flag?_eq_none hbody hgives,
        h.takesHyphens hroom hallowed, h.valueOrWord_eq]
    · next letter letters _ _ hletters =>
      obtain ⟨hallowed, -, hgives⟩ := hword.of_hyphen hletters
      have hne : letter ≠ 'h' := by
        rintro rfl
        exact hgives (.short hletters)
      simp [short, h.takesHyphens hroom hallowed, hne, h.valueOrWord_eq]
    · exact h.valueOrWord_eq text

theorem step_flag (hwf : g.WellFormed) (hc : c ∈ g.subcommands) (hf : f ∈ g.flagsOf c)
    (hopen : ¬ (s.literal ∨ s.runsOn (g.level c))) :
    s.step (g.level c) ("--" ++ f.name) = do
      let values ← s.settled
      if f.kind.takesValue then return { s with values, pending := some (f, none) }
      return { s with values := ← f.turnOn values, pending := none } := by
  obtain ⟨halpha, hequals⟩ := hwf.spelling c hc f hf
  have hspan : f.name.toList.span (· != '=') = (f.name.toList, []) := by
    have hall : ∀ ch ∈ f.name.toList, (ch != '=') = true := by
      intro ch hch
      have hne : ch ≠ '=' := by
        rintro rfl
        exact hequals hch
      simpa using hne
    rw [List.span_eq_takeWhile_dropWhile, List.takeWhile_eq_self_iff.mpr hall,
      List.dropWhile_eq_nil_iff.mpr hall]
  have hflag : (g.level c).flag? f.name = some f := find?_key (hwf.flags c hc) hf
  obtain ⟨letter, letters, hname⟩ : ∃ letter letters, f.name.toList = letter :: letters := by
    cases hlist : f.name.toList with
    | nil => simp [hlist] at halpha
    | cons letter letters => exact ⟨letter, letters, rfl⟩
  have htext : ("--" ++ f.name).toList = '-' :: '-' :: letter :: letters := by simp [hname]
  rw [step, if_neg hopen, htext]
  simp only [long]
  rw [← hname, hspan]
  simp [hflag]

theorem takesValue_of_read {value : Value} (h : f.kind.read text = .ok value) :
    f.kind.takesValue = true := by
  cases hkind : f.kind <;> simp [hkind, Kind.read, Kind.takesValue] at h ⊢

theorem foldlM_step_singleton (level : Level) (s : Scan) (text : String) :
    [text].foldlM (step level) s = s.step level text := bind_pure _

theorem Shows.mark (h : s.Shows p) (hopen : p.Open c) :
    ∃ t, ["--"].foldlM (step (g.level c)) s = .ok t ∧ t.Shows { p with literal := true } := by
  have hnot := (h.isOpen_iff (g := g)).mpr hopen
  refine ⟨{ s with literal := true }, ?_, h.settled, h.words, rfl⟩
  rw [foldlM_step_singleton]
  simp [step, hnot]

theorem Shows.switch (h : s.Shows p) (hwf : g.WellFormed) (hc : c ∈ g.subcommands)
    (hopen : p.Open c) (hf : f ∈ g.flagsOf c) (hkind : f.kind = .switch)
    (hnew : p.values.lookup f.name = none) :
    ∃ t, ["--" ++ f.name].foldlM (step (g.level c)) s = .ok t ∧
      t.Shows { p with values := p.values ++ [(f.name, .on)] } := by
  refine ⟨{ s with values := p.values ++ [(f.name, .on)], pending := none }, ?_, rfl, h.words,
    h.literal⟩
  rw [foldlM_step_singleton, step_flag hwf hc hf (h.isOpen_iff.mpr hopen), h.settled]
  simp [bind, Except.bind, pure, Except.pure, hkind, Kind.takesValue, Flag.turnOn, Flag.put, hnew]

theorem Shows.setting (h : s.Shows p) (hwf : g.WellFormed) (hc : c ∈ g.subcommands)
    (hopen : p.Open c) (hf : f ∈ g.flagsOf c) (hnew : p.values.lookup f.name = none)
    (htext : text.toList.head? ≠ some '-') {value : Value} (hvalue : f.kind.read text = .ok value) :
    ∃ t, ["--" ++ f.name, text].foldlM (step (g.level c)) s = .ok t ∧
      t.Shows { p with values := p.values ++ [(f.name, value)] } := by
  have hnot := (h.isOpen_iff (g := g)).mpr hopen
  let t : Scan := { s with values := p.values, pending := some (f, none) }
  have hgiven : s.step (g.level c) ("--" ++ f.name) = .ok t := by
    simp [step_flag hwf hc hf hnot, h.settled, takesValue_of_read hvalue, bind, Except.bind, pure,
      Except.pure, t]
  have hread : t.step (g.level c) text = .ok { t with pending := some (f, some text) } := by
    have hnot' : ¬ (t.literal ∨ t.runsOn (g.level c)) := hnot
    rw [step, if_neg hnot']
    split
    · next hmark => simp [hmark] at htext
    · next hbody => simp [hbody] at htext
    · next hletters => simp [hletters] at htext
    · rfl
  refine ⟨{ t with pending := some (f, some text) }, ?_, ?_, h.words, h.literal⟩
  · rw [List.foldlM_cons, hgiven]
    exact (foldlM_step_singleton _ t text).trans hread
  · simp [Scan.settled, t, Flag.assign, Flag.put, hnew, hvalue, bind, Except.bind, pure,
      Except.pure]

theorem Shows.extend (h : s.Shows p) (hroom : c.words.many = true ∨ p.words = [])
    (htext : p.Open c → IsWord g c text) :
    ∃ t, [text].foldlM (step (g.level c)) s = .ok t ∧
      t.Shows { p with words := p.words ++ [text] } := by
  obtain ⟨t, ht, hshows⟩ := h.word (h.hasRoom (g := g) hroom) text
  refine ⟨t, ?_, hshows⟩
  rw [foldlM_step_singleton, h.step_word hroom htext, ht]

/-- Behind the name of the job, the arguments are scanned to what has been taken. -/
def Reads (g : Grammar) (c : Subcommand) (arguments : List String) (p : Progress) : Prop :=
  ∃ rest s, arguments = c.name :: rest ∧ rest.foldlM (step (g.level c)) {} = .ok s ∧ s.Shows p

theorem Reads.append {front back : List String} {p' : Progress} (h : Reads g c front p)
    (hback : ∀ s : Scan, s.Shows p →
      ∃ t, back.foldlM (step (g.level c)) s = .ok t ∧ t.Shows p') :
    Reads g c (front ++ back) p' := by
  obtain ⟨rest, s, rfl, hs, hshows⟩ := h
  obtain ⟨t, ht, hshows'⟩ := hback s hshows
  refine ⟨rest ++ back, t, rfl, ?_, hshows'⟩
  rw [List.foldlM_append, hs]
  exact ht

theorem reads_of_taken (hwf : g.WellFormed) (hc : c ∈ g.subcommands) {arguments : List String}
    (h : Taken g c arguments p) : Reads g c arguments p := by
  induction h with
  | name => exact ⟨[], {}, rfl, rfl, rfl, rfl, rfl⟩
  | mark _ hopen ih => exact ih.append fun _ hs => hs.mark hopen
  | switch _ hopen hf hkind hnew ih =>
    exact ih.append fun _ hs => hs.switch hwf hc hopen hf hkind hnew
  | setting _ hopen hf hnew htext hvalue ih =>
    exact ih.append fun _ hs => hs.setting hwf hc hopen hf hnew htext hvalue
  | word _ hroom htext ih => exact ih.append fun _ hs => hs.extend hroom htext

end Scan

namespace Grammar
variable {g : Grammar} {c : Subcommand}

theorem matchArguments_eq (hwf : g.WellFormed) (hc : c ∈ g.subcommands) (rest : List String) :
    matchArguments g (c.name :: rest) = g.matchBehind c rest := by
  have hnames := List.nodup_cons.mp hwf.names
  have hhelp : c.name ≠ "help" := by
    intro h
    exact hnames.1 (h ▸ List.mem_map_of_mem hc)
  have hfind : g.subcommand? c.name = some c := find?_key hnames.2 hc
  have hsettled : Scan.settled {} = .ok [] := rfl
  simp only [matchArguments, matchFrom, hhelp, hfind, hsettled]
  cases g.matchBehind c rest with
  | error e => rfl
  | ok m => simp [bind, Except.bind, pure, Except.pure, Scan.awaited?]

theorem matchBehind_eq {rest : List String} {s : Scan} {p : Progress}
    (hs : rest.foldlM (Scan.step (g.level c)) {} = .ok s) (hshows : s.Shows p) :
    g.matchBehind c rest =
      if p.words = [] then .error .missingWord else .ok ⟨c.name, p.values, p.words⟩ := by
  simp only [matchBehind, hs, hshows.settled, hshows.words, bind, Except.bind, List.isEmpty_iff]
  split <;> rfl

theorem conventions_matchArguments : Conventions matchArguments := by
  have hresult {g : Grammar} {c : Subcommand} {arguments : List String} {p : Progress}
      (hwf : g.WellFormed) (hc : c ∈ g.subcommands) (h : Taken g c arguments p) :
      matchArguments g arguments =
        if p.words = [] then .error .missingWord else .ok ⟨c.name, p.values, p.words⟩ := by
    obtain ⟨rest, s, rfl, hs, hshows⟩ := Scan.reads_of_taken hwf hc h
    rw [matchArguments_eq hwf hc, matchBehind_eq hs hshows]
  constructor
  · intro g c arguments p hwf hc h hne
    rw [hresult hwf hc h, if_neg hne]
  · intro g c arguments p hwf hc h hnone
    rw [hresult hwf hc h, if_pos hnone]

end Grammar

end Tapecraft.Cli
