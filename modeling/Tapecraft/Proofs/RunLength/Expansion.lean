import Mathlib
import Tapecraft.Proofs.Program.Composition
import Tapecraft.Proofs.Synthesis.Shortest
import Tapecraft.RunLength

/-! # Shortened texts can be expanded

The runs of a text spell it out again. Their texts can be told apart, because the length of a run
is followed by a character that is no digit, as long as the text itself has none. So nothing but
the comments is lost when such a text is shortened.
-/
namespace Tapecraft

namespace RunLength
open Command

def spelledOut (rs : List (Char × ℕ)) : List Char := rs.flatMap fun r => List.replicate r.2 r.1

@[simp] theorem spelledOut_nil : spelledOut [] = [] := rfl

@[simp] theorem spelledOut_run_cons (r : Char × ℕ) (rs : List (Char × ℕ)) :
    spelledOut (r :: rs) = List.replicate r.2 r.1 ++ spelledOut rs := List.flatMap_cons

theorem spelledOut_cons (c : Char) (rs : List (Char × ℕ)) :
    spelledOut (cons c rs) = c :: spelledOut rs := by
  cases rs with
  | nil => rfl
  | cons r rest =>
    obtain ⟨d, count⟩ := r
    rw [cons]
    split
    · next h =>
      obtain ⟨rfl, -⟩ := h
      simp [List.replicate_succ]
    · simp

theorem spelledOut_runs (text : List Char) : spelledOut (runs text) = text := by
  induction text with
  | nil => rfl
  | cons c text ih =>
    change spelledOut (cons c (runs text)) = c :: text
    rw [spelledOut_cons, ih]

/-- What is true of each run of a text: only repeatable characters are counted further than one. -/
structure IsRun (r : Char × ℕ) : Prop where
  pos : 0 < r.2
  repeatable : 1 < r.2 → isRepeatable r.1

theorem isRun_one (c : Char) : IsRun (c, 1) :=
  ⟨Nat.one_pos, fun h => absurd h (Nat.lt_irrefl 1)⟩

theorem isRun_of_mem_cons {c : Char} {rs : List (Char × ℕ)} (h : ∀ r ∈ rs, IsRun r)
    {r : Char × ℕ} (hr : r ∈ cons c rs) : IsRun r := by
  cases rs with
  | nil =>
    rw [List.mem_singleton.mp hr]
    exact isRun_one c
  | cons first rest =>
    obtain ⟨d, count⟩ := first
    rw [cons] at hr
    split at hr
    · next hjoin =>
      obtain ⟨rfl, hrepeatable⟩ := hjoin
      rcases List.mem_cons.mp hr with rfl | hr
      · exact ⟨Nat.succ_pos _, fun _ => hrepeatable⟩
      · exact h r (List.mem_cons_of_mem _ hr)
    · rcases List.mem_cons.mp hr with rfl | hr
      · exact isRun_one c
      · exact h r hr

theorem isRun_of_mem_runs {text : List Char} : ∀ r ∈ runs text, IsRun r := by
  induction text with
  | nil =>
    intro r hr
    cases hr
  | cons c text ih =>
    intro r hr
    exact isRun_of_mem_cons ih hr

theorem replicate_sublist_of_mem_runs {text : List Char} {r : Char × ℕ} (h : r ∈ runs text) :
    (List.replicate r.2 r.1).Sublist text := by
  rw [← spelledOut_runs text]
  exact List.sublist_flatten_of_mem (List.mem_map_of_mem h)

theorem fst_mem_of_mem_runs {text : List Char} {r : Char × ℕ} (h : r ∈ runs text) :
    r.1 ∈ text := by
  apply (replicate_sublist_of_mem_runs h).subset
  exact List.mem_replicate.mpr ⟨(isRun_of_mem_runs r h).pos.ne', rfl⟩

/-- The text does not begin with a digit, which would be read as part of a length before it. -/
def StartsPlain (text : List Char) : Prop := ∀ c ∈ text.head?, c.isDigit = false

theorem StartsPlain.takeWhile_eq {text : List Char} (h : StartsPlain text) :
    text.takeWhile Char.isDigit = [] := by
  cases text with
  | nil => rfl
  | cons c rest =>
    have hc : c.isDigit = false := h c rfl
    rw [List.takeWhile_cons_of_neg (by simp [hc])]

theorem StartsPlain.dropWhile_eq {text : List Char} (h : StartsPlain text) :
    text.dropWhile Char.isDigit = text := by
  have hsplit := List.takeWhile_append_dropWhile (p := Char.isDigit) (l := text)
  rwa [h.takeWhile_eq, List.nil_append] at hsplit

theorem expand_runText_append {r : Char × ℕ} (hr : IsRun r) {rest : List Char}
    (hrest : StartsPlain rest) :
    expand (runText r ++ rest) = List.replicate r.2 r.1 ++ expand rest := by
  obtain ⟨c, count⟩ := r
  have hpos : 0 < count := hr.pos
  by_cases hone : count ≤ 1
  · obtain rfl : count = 1 := by omega
    rw [runText, if_pos le_rfl, List.singleton_append, expand, hrest.takeWhile_eq, if_neg (by simp)]
    rfl
  · -- The block of digits behind the character is the written length and no more.
    have hdigits : ∀ d ∈ Nat.toDigits 10 count, d.isDigit = true := by
      intro d hd
      exact Nat.isDigit_of_mem_toDigits (by decide) (by decide) hd
    have hlength : (Nat.toDigits 10 count ++ rest).takeWhile Char.isDigit =
        Nat.toDigits 10 count := by
      rw [List.takeWhile_append_of_pos hdigits, hrest.takeWhile_eq, List.append_nil]
    have hbehind : (Nat.toDigits 10 count ++ rest).dropWhile Char.isDigit = rest := by
      rw [List.dropWhile_append_of_pos hdigits, hrest.dropWhile_eq]
    have hrepeatable : isRepeatable c = true := hr.repeatable (by omega)
    rw [runText, if_neg hone, List.cons_append, expand, hlength, hbehind,
      if_pos ⟨hrepeatable, Nat.toDigits_ne_nil⟩, Nat.ofDigitChars_ten_toDigits]

theorem head?_flatMap_runText (rs : List (Char × ℕ)) :
    (rs.flatMap runText).head? = (rs.map Prod.fst).head? := by
  cases rs with
  | nil => rfl
  | cons r rest =>
    obtain ⟨c, count⟩ := r
    rw [List.flatMap_cons, runText]
    split <;> rfl

theorem startsPlain_flatMap_runText {rs : List (Char × ℕ)}
    (h : ∀ r ∈ rs, r.1.isDigit = false) : StartsPlain (rs.flatMap runText) := by
  intro c hc
  rw [head?_flatMap_runText] at hc
  obtain ⟨r, hr, rfl⟩ := List.mem_map.mp (List.mem_of_mem_head? hc)
  exact h r hr

/-- Each run is expanded by itself, as the text of the next one begins with its character. -/
theorem expand_flatMap_runText {rs : List (Char × ℕ)} (hruns : ∀ r ∈ rs, IsRun r)
    (hplain : ∀ r ∈ rs, r.1.isDigit = false) : expand (rs.flatMap runText) = spelledOut rs := by
  induction rs with
  | nil => simp [expand]
  | cons r rs ih =>
    have hplain' : ∀ r ∈ rs, r.1.isDigit = false :=
      fun r' hr' => hplain r' (List.mem_cons_of_mem _ hr')
    have hruns' : ∀ r ∈ rs, IsRun r := fun r' hr' => hruns r' (List.mem_cons_of_mem _ hr')
    rw [List.flatMap_cons, spelledOut_run_cons, ← ih hruns' hplain']
    exact expand_runText_append (hruns r List.mem_cons_self) (startsPlain_flatMap_runText hplain')

def DigitFree (text : List Char) : Prop := ∀ c ∈ text, c.isDigit = false

theorem isKept_iff {c : Char} (h : c.isDigit = false) : isKept c = true ↔ c ∈ characters := by
  simp only [isKept, isRepeatable, characters, h, Bool.or_false, Bool.or_eq_true,
    decide_eq_true_eq, List.mem_cons, List.not_mem_nil, or_false]
  tauto

theorem filter_isKept {text : List Char} (h : DigitFree text) :
    text.filter isKept = text.filter (· ∈ characters) := by
  apply List.filter_congr
  intro c hc
  rw [Bool.eq_iff_iff, isKept_iff (h c hc), decide_eq_true_eq]

theorem expand_shorten {text : String} (h : DigitFree text.toList) :
    expand (shorten text).toList = text.toList.filter (· ∈ characters) := by
  have hplain : ∀ r ∈ runs (text.toList.filter isKept), r.1.isDigit = false := by
    intro r hr
    exact h r.1 (List.mem_of_mem_filter (fst_mem_of_mem_runs hr))
  rw [shorten, String.toList_ofList, shortenList, expand_flatMap_runText isRun_of_mem_runs hplain,
    spelledOut_runs, filter_isKept h]

theorem shorten_eq_iff {a b : String} (ha : DigitFree a.toList) (hb : DigitFree b.toList) :
    shorten a = shorten b ↔
      a.toList.filter (· ∈ characters) = b.toList.filter (· ∈ characters) := by
  constructor
  · intro h
    rw [← expand_shorten ha, h, expand_shorten hb]
  · intro h
    rw [shorten, shorten, shortenList, shortenList, filter_isKept ha, filter_isKept hb, h]

theorem ofText_expand_shorten {text : String} (h : DigitFree text.toList) :
    ofText (expand (shorten text).toList) = ofText text.toList := by
  rw [ofText_eq_iff, expand_shorten h, List.filter_filter]
  simp

end RunLength

namespace Synthesis
open Command

theorem mem_characters_of_silent {c : Char} (h : c ∈ ['+', '-', '<', '>', '[', ']']) :
    c ∈ characters := by
  simp only [List.mem_cons, List.not_mem_nil, or_false] at h
  rcases h with rfl | rfl | rfl | rfl | rfl | rfl <;> decide

theorem mem_characters_of_approach {table : Table}
    (h : ∀ x y, ∀ c ∈ (table.text x y).toList, c ∈ characters) {last target : UInt8} {c : Char}
    (hc : c ∈ (approach table last target).toList) : c ∈ characters := by
  unfold approach at hc
  split at hc
  · exact h _ _ c hc
  · rw [String.toList_append, List.mem_append] at hc
    rcases hc with hc | hc
    · rw [List.mem_singleton.mp hc]
      decide
    · exact h _ _ c hc

theorem mem_characters_of_extend {table : Table}
    (h : ∀ x y, ∀ c ∈ (table.text x y).toList, c ∈ characters) {chars : List Char}
    {position : ℕ} {last : UInt8} {program source : String}
    (hprogram : ∀ c ∈ program.toList, c ∈ characters)
    (hsource : extend table chars position last program = .ok source) :
    ∀ c ∈ source.toList, c ∈ characters := by
  induction chars generalizing position last program with
  | nil =>
    cases hsource
    exact hprogram
  | cons ch chars ih =>
    rw [extend] at hsource
    cases hcell : cellOf? ch with
    | none => simp [hcell] at hsource
    | some target =>
      simp only [hcell] at hsource
      refine ih ?_ hsource
      intro c hc
      rw [String.toList_push, String.toList_append, List.mem_append, List.mem_append] at hc
      rcases hc with (hc | hc) | hc
      · exact hprogram c hc
      · exact mem_characters_of_approach h hc
      · rw [List.mem_singleton.mp hc]
        decide

/-- Programs that print a text are written in commands only. -/
theorem mem_characters_of_program {text source : String}
    (h : program Table.shortest.get text = .ok source) : ∀ c ∈ source.toList, c ∈ characters := by
  refine mem_characters_of_extend ?_ ?_ h
  · intro x y c hc
    exact mem_characters_of_silent ((Table.bounded_shortest.carries x y).silent c hc)
  · intro c hc
    cases hc

end Synthesis

namespace RunLength
open Command

theorem isDigit_eq_false_of_mem_characters {c : Char} (h : c ∈ characters) : c.isDigit = false := by
  unfold characters at h
  fin_cases h <;> rfl

/-- Expanding a shortened text without digits gives its command characters. So two such texts are
shortened to the same exactly if they have the same commands, the expanded text compiles to the
same code as the text, and a program for printing a text comes back as it was. No run is longer
than the text, so below 2^31 characters its length fits in 32 bits. -/
theorem expand_undoes_shorten :
    (∀ text : String, DigitFree text.toList →
      expand (shorten text).toList = text.toList.filter (· ∈ characters)) ∧
    (∀ a b : String, DigitFree a.toList → DigitFree b.toList →
      (shorten a = shorten b ↔
        a.toList.filter (· ∈ characters) = b.toList.filter (· ∈ characters))) ∧
    (∀ (text : String) (p : Program), DigitFree text.toList → Program.compile text = .ok p →
      ∃ q, Program.compile (.ofList (expand (shorten text).toList)) = .ok q ∧ q.code = p.code) ∧
    (∀ text source : String, Synthesis.program Table.shortest.get text = .ok source →
      String.ofList (expand (shorten source).toList) = source) ∧
    ∀ text : String, text.length < 2 ^ 31 →
      ∀ r ∈ runs (text.toList.filter isKept), r.2 < 2 ^ 31 := by
  refine ⟨?_, ?_, ?_, ?_, ?_⟩
  · intro text h
    exact expand_shorten h
  · intro a b ha hb
    exact shorten_eq_iff ha hb
  · intro text p h hp
    have hsame : ofText text.toList =
        ofText (String.ofList (expand (shorten text).toList)).toList := by
      rw [String.toList_ofList, ofText_expand_shorten h]
    exact ⟨_, Program.compile_of_ofText_eq hsame hp, rfl⟩
  · intro text source h
    have hcommands := Synthesis.mem_characters_of_program h
    have hplain : DigitFree source.toList :=
      fun c hc => isDigit_eq_false_of_mem_characters (hcommands c hc)
    have hall : source.toList.filter (· ∈ characters) = source.toList := by
      apply List.filter_eq_self.mpr
      simpa using hcommands
    rw [expand_shorten hplain, hall, String.ofList_toList]
  · intro text hlength r hr
    have hrun := (replicate_sublist_of_mem_runs hr).length_le
    have hkept := List.length_filter_le isKept text.toList
    rw [List.length_replicate] at hrun
    rw [String.length_toList] at hkept
    omega

theorem expand_undoes_shorten_comments :
    shorten "+ x++[->>]" = "+3[->2]" ∧
      expand (shorten "+ x++[->>]").toList = "+++[->>]".toList ∧
      (∃ q, Program.compile (.ofList (expand (shorten "+ x++[->>]").toList)) = .ok q ∧
        q.code = #[.add 1, .add 1, .add 1, .jumpIfZero 8, .add (-1), .move 1, .move 1,
          .jumpIfNonzero 4]) ∧
      ∃ source, Synthesis.program Table.shortest.get "A" = .ok source ∧
        String.ofList (expand (shorten source).toList) = source := by
  have hplain : DigitFree "+ x++[->>]".toList := by simp [DigitFree]
  have hkept : "+ x++[->>]".toList.filter (· ∈ characters) = "+++[->>]".toList := by rfl
  have hshort : shorten "+ x++[->>]" = "+3[->2]" := by decide +kernel
  have hcompile : Program.compile "+ x++[->>]" = .ok ⟨"+ x++[->>]", #[.add 1, .add 1, .add 1,
      .jumpIfZero 8, .add (-1), .move 1, .move 1, .jumpIfNonzero 4]⟩ := by rfl
  obtain ⟨hexpand, -, hcode, hprogram, -⟩ := expand_undoes_shorten
  have hletter : ∀ c ∈ "A".toList, c.toNat ≤ 255 := by simp
  obtain ⟨plan, bytes, -, -, -, -, hsource⟩ :=
    Synthesis.extend_eq_plan Table.tight_shortest hletter 0 0 ""
  refine ⟨hshort, ?_, hcode _ _ hplain hcompile, _, hsource, hprogram "A" _ hsource⟩
  rw [hexpand _ hplain, hkept]

end RunLength

end Tapecraft
