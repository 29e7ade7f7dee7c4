import Mathlib
import Tapecraft.Proofs.Program.Layout

/-! # Which texts compile, and what is reported of the others

Only the brackets of a text decide whether it compiles. The scan keeps as many loops open as its
text has opening brackets that are not closed yet, so it stops at the first prefix that closes one
loop more than it opens, and what is left open at the end is the surplus of opening brackets.
-/
namespace Tapecraft.Program
open Command

/-- The text closes more loops than it opens and `depth` loops opened before it. -/
def Overcloses (depth : ℕ) (text : List Char) : Prop :=
  depth + text.count '[' < text.count ']'

theorem not_overcloses_nil (depth : ℕ) : ¬ Overcloses depth [] := by simp [Overcloses]

theorem count_bracket_cons (bracket ch : Char) (text : List Char) :
    (ch :: text).count bracket = [ch].count bracket + text.count bracket := by
  rw [List.count_cons, List.count_singleton, Nat.add_comm]

/-- What a scan with `depth` loops open makes of a text. -/
inductive Scanned (depth : ℕ) (text : List Char) (position : ℕ) :
    Except BracketError Scan → Prop
  | finished {t : Scan}
      (hcount : t.openLoops.length + text.count ']' = depth + text.count '[')
      (hnever : ∀ n, ¬ Overcloses depth (text.take n)) : Scanned depth text position (.ok t)
  /-- It stops at the bracket that ends the shortest prefix which closes too many loops. -/
  | stopped {k : ℕ} (hclose : text[k]? = some ']')
      (hleast : IsLeast {n | Overcloses depth (text.take n)} (k + 1)) :
      Scanned depth text position (.error (.unmatchedClose (position + k)))

section Step
variable {depth next : ℕ} {ch : Char}

theorem overcloses_cons_iff (h : next + [ch].count ']' = depth + [ch].count '[')
    (text : List Char) : Overcloses depth (ch :: text) ↔ Overcloses next text := by
  have hopen := count_bracket_cons '[' ch text
  have hclose := count_bracket_cons ']' ch text
  unfold Overcloses
  omega

/-- Where a scan goes on behind a character, the text behind it decides. -/
theorem Scanned.cons (h : next + [ch].count ']' = depth + [ch].count '[') {text : List Char}
    {position : ℕ} {r : Except BracketError Scan} (hr : Scanned next text (position + 1) r) :
    Scanned depth (ch :: text) position r := by
  cases hr with
  | finished hcount hnever =>
    refine .finished ?_ ?_
    · have hopen := count_bracket_cons '[' ch text
      have hclose := count_bracket_cons ']' ch text
      omega
    · intro n hn
      cases n with
      | zero => exact not_overcloses_nil depth hn
      | succ n => exact hnever n ((overcloses_cons_iff h _).mp hn)
  | @stopped k hclose hleast =>
    rw [Nat.add_assoc, Nat.add_comm 1 k]
    refine .stopped hclose ⟨(overcloses_cons_iff h _).mpr hleast.1, ?_⟩
    intro n hn
    cases n with
    | zero => exact absurd hn (not_overcloses_nil depth)
    | succ n => exact Nat.succ_le_succ (hleast.2 ((overcloses_cons_iff h _).mp hn))

end Step

theorem length_openLoops_command {s t : Scan} {c : Command} (h : s.command c = some t) :
    t.openLoops.length + [c.toChar].count ']' = s.openLoops.length + [c.toChar].count '[' := by
  cases c with
  | action a =>
    cases h
    cases a <;> rfl
  | openLoop =>
    cases h
    rfl
  | closeLoop =>
    obtain ⟨code, openLoops⟩ := s
    cases openLoops with
    | nil => cases h
    | cons start outer =>
      cases h
      rfl

theorem command_eq_none {s : Scan} {c : Command} (h : s.command c = none) :
    c = .closeLoop ∧ s.openLoops = [] := by
  cases c with
  | action a => cases h
  | openLoop => cases h
  | closeLoop =>
    obtain ⟨code, openLoops⟩ := s
    cases openLoops with
    | nil => exact ⟨rfl, rfl⟩
    | cons start outer => cases h

theorem count_toChar_comment {ch : Char} (h : ofChar? ch = none) (c : Command) :
    [ch].count c.toChar = 0 := by
  refine List.count_eq_zero.mpr fun hmem => ?_
  rw [← List.mem_singleton.mp hmem, ofChar?_toChar] at h
  cases h

theorem scanned_scan (text : List Char) (position : ℕ) (s : Scan) :
    Scanned s.openLoops.length text position (scan text position s) := by
  induction text generalizing position s with
  | nil =>
    refine .finished rfl ?_
    intro n
    rw [List.take_nil]
    exact not_overcloses_nil _
  | cons ch text ih =>
    unfold scan
    cases hc : ofChar? ch with
    | none =>
      have hclose : [ch].count ']' = 0 := count_toChar_comment hc .closeLoop
      have hopen : [ch].count '[' = 0 := count_toChar_comment hc .openLoop
      exact (ih (position + 1) s).cons (by rw [hclose, hopen])
    | some c =>
      obtain rfl := ofChar?_eq_some_iff.mp hc
      cases hs : s.command c with
      | some t =>
        simp only [hs]
        exact (ih (position + 1) t).cons (length_openLoops_command hs)
      | none =>
        obtain ⟨rfl, hempty⟩ := command_eq_none hs
        simp only [hs]
        refine .stopped (k := 0) rfl ⟨?_, ?_⟩
        · simp [Overcloses, hempty, toChar]
        · intro n hn
          cases n with
          | zero => exact absurd hn (not_overcloses_nil _)
          | succ n => exact Nat.le_add_left _ _

theorem compile_cases (source : String) :
    (∃ p, compile source = .ok p ∧ (∀ n, ¬ Overcloses 0 (source.toList.take n)) ∧
      source.toList.count '[' = source.toList.count ']') ∨
    (∃ position, compile source = .error (.unmatchedClose position) ∧
      source.toList[position]? = some ']' ∧
      IsLeast {n | Overcloses 0 (source.toList.take n)} (position + 1)) ∨
    ∃ count, compile source = .error (.unmatchedOpen count) ∧
      (∀ n, ¬ Overcloses 0 (source.toList.take n)) ∧ 0 < count ∧
      source.toList.count '[' = source.toList.count ']' + count := by
  have hscanned : Scanned 0 source.toList 0 (scan source.toList 0 {}) :=
    scanned_scan source.toList 0 {}
  generalize hr : scan source.toList 0 {} = r at hscanned
  cases hscanned with
  | @finished t hcount hnever =>
    by_cases hopen : t.openLoops = []
    · refine Or.inl ⟨⟨source, t.code⟩, ?_, hnever, ?_⟩
      · simp only [compile, hr, hopen, bind, Except.bind]
        rfl
      · simp only [hopen, List.length_nil] at hcount
        omega
    · refine Or.inr (Or.inr ⟨t.openLoops.length, ?_, hnever, ?_, by omega⟩)
      · simp [compile, hr, hopen, bind, Except.bind, throw, throwThe, MonadExceptOf.throw]
      · exact List.length_pos_iff.mpr hopen
  | @stopped k hclose hleast =>
    refine Or.inr (Or.inl ⟨k, ?_, hclose, hleast⟩)
    simp only [compile, hr, Nat.zero_add, bind, Except.bind]

variable {source : String}

theorem compile_eq_unmatchedClose_iff {position : ℕ} :
    compile source = .error (.unmatchedClose position) ↔
      source.toList[position]? = some ']' ∧
        IsLeast {n | Overcloses 0 (source.toList.take n)} (position + 1) := by
  constructor
  · intro h
    rcases compile_cases source with ⟨p, hp, -⟩ | ⟨k, hk, hstop⟩ | ⟨m, hm, -⟩
    · cases hp.symm.trans h
    · cases hk.symm.trans h
      exact hstop
    · cases hm.symm.trans h
  · rintro ⟨-, hleast⟩
    rcases compile_cases source with ⟨p, -, hnever, -⟩ | ⟨k, hk, -, hk'⟩ | ⟨m, -, hnever, -⟩
    · exact absurd hleast.1 (hnever _)
    · obtain rfl : k = position := Nat.succ.inj (hk'.unique hleast)
      exact hk
    · exact absurd hleast.1 (hnever _)

theorem exists_compile_eq_unmatchedClose_iff :
    (∃ position, compile source = .error (.unmatchedClose position)) ↔
      ∃ n, Overcloses 0 (source.toList.take n) := by
  constructor
  · rintro ⟨position, h⟩
    exact ⟨position + 1, (compile_eq_unmatchedClose_iff.mp h).2.1⟩
  · rintro ⟨n, hn⟩
    rcases compile_cases source with ⟨p, -, hnever, -⟩ | ⟨k, hk, -⟩ | ⟨m, -, hnever, -⟩
    · exact absurd hn (hnever n)
    · exact ⟨k, hk⟩
    · exact absurd hn (hnever n)

theorem compile_eq_unmatchedOpen_iff {count : ℕ} :
    compile source = .error (.unmatchedOpen count) ↔
      (∀ n, ¬ Overcloses 0 (source.toList.take n)) ∧ 0 < count ∧
        source.toList.count '[' = source.toList.count ']' + count := by
  constructor
  · intro h
    rcases compile_cases source with ⟨p, hp, -⟩ | ⟨k, hk, -⟩ | ⟨m, hm, hleft⟩
    · cases hp.symm.trans h
    · cases hk.symm.trans h
    · cases hm.symm.trans h
      exact hleft
  · rintro ⟨hnever, hpos, hcount⟩
    rcases compile_cases source with ⟨p, -, -, heq⟩ | ⟨k, -, -, hleast⟩ | ⟨m, hm, -, -, heq⟩
    · omega
    · exact absurd hleast.1 (hnever _)
    · obtain rfl : m = count := by omega
      exact hm

theorem exists_compile_eq_ok_iff :
    (∃ p, compile source = .ok p) ↔ (∀ n, ¬ Overcloses 0 (source.toList.take n)) ∧
      source.toList.count '[' = source.toList.count ']' := by
  constructor
  · rintro ⟨p, h⟩
    rcases compile_cases source with ⟨p, -, hbalanced⟩ | ⟨k, hk, -⟩ | ⟨m, hm, -⟩
    · exact hbalanced
    · cases hk.symm.trans h
    · cases hm.symm.trans h
  · rintro ⟨hnever, hcount⟩
    rcases compile_cases source with ⟨p, hp, -⟩ | ⟨k, -, -, hleast⟩ | ⟨m, -, -, hpos, heq⟩
    · exact ⟨p, hp⟩
    · exact absurd hleast.1 (hnever _)
    · omega

/-- A text compiles exactly if none of its prefixes closes more loops than it opens and the whole
text closes them all. Otherwise the position reported is that of the bracket which ends the
shortest prefix that closes too many loops, and only if there is no such prefix the number of
loops left open is reported, which is the surplus of opening brackets. -/
theorem compile_by_brackets (source : String) :
    ((∃ p, compile source = .ok p) ↔
      (∀ n, ¬ Overcloses 0 (source.toList.take n)) ∧
        source.toList.count '[' = source.toList.count ']') ∧
    ((∃ position, compile source = .error (.unmatchedClose position)) ↔
      ∃ n, Overcloses 0 (source.toList.take n)) ∧
    (∀ position, compile source = .error (.unmatchedClose position) ↔
      source.toList[position]? = some ']' ∧
        IsLeast {n | Overcloses 0 (source.toList.take n)} (position + 1)) ∧
    ((∃ count, compile source = .error (.unmatchedOpen count)) ↔
      (∀ n, ¬ Overcloses 0 (source.toList.take n)) ∧
        source.toList.count ']' < source.toList.count '[') ∧
    ∀ count, compile source = .error (.unmatchedOpen count) ↔
      (∀ n, ¬ Overcloses 0 (source.toList.take n)) ∧ 0 < count ∧
        source.toList.count '[' = source.toList.count ']' + count := by
  refine ⟨exists_compile_eq_ok_iff, exists_compile_eq_unmatchedClose_iff,
    fun _ => compile_eq_unmatchedClose_iff, ?_, fun _ => compile_eq_unmatchedOpen_iff⟩
  constructor
  · rintro ⟨count, h⟩
    obtain ⟨hnever, hpos, hcount⟩ := compile_eq_unmatchedOpen_iff.mp h
    exact ⟨hnever, by omega⟩
  · rintro ⟨hnever, hlt⟩
    refine ⟨_, compile_eq_unmatchedOpen_iff.mpr ⟨hnever, Nat.sub_pos_of_lt hlt, ?_⟩⟩
    exact (Nat.add_sub_of_le hlt.le).symm

end Tapecraft.Program
