import Mathlib
import Tapecraft.Proofs.Snippet.Sound
import Tapecraft.Synthesis

/-! # Programs are written from left to right

The program of a text is continued for the text behind it: what is added depends on the byte
printed last and on what follows, and on nothing else of what was written. The first character that
fits in no cell ends the writing, so what stands behind it plays no part.
-/
namespace Tapecraft.Synthesis

/-- The first character of the text that fits in no cell, with its position. -/
structure FirstWide (text : List Char) (e : WideChar) : Prop where
  found : text[e.position]? = some e.char
  wide : 255 < e.char.toNat
  before : ∀ c ∈ text.take e.position, c.toNat ≤ 255

/-- What is written for characters that all fit in a cell, behind a byte printed last. -/
def continuation (table : Table) : UInt8 → List Char → String
  | _, [] => ""
  | last, c :: rest =>
    (approach table last (.ofNat c.toNat)).push '.' ++ continuation table (.ofNat c.toNat) rest

/-- The byte that is printed last for a text, where another one was printed before it. -/
def lastByte (before : UInt8) (text : List Char) : UInt8 :=
  text.getLast?.elim before fun c => .ofNat c.toNat

theorem lastByte_cons (before : UInt8) (c : Char) (text : List Char) :
    lastByte before (c :: text) = lastByte (.ofNat c.toNat) text := by
  rw [lastByte, lastByte, List.getLast?_cons]
  cases text.getLast? <;> rfl

theorem program_singleton (table : Table) {c : Char} {target : UInt8}
    (h : cellOf? c = some target) :
    program table (.singleton c) = .ok ((table.text 0 target).push '.') := by
  simp [program, extend, h, approach]

section FirstWide
variable {a b : List Char} {e : WideChar}

theorem firstWide_zero {c : Char} {text : List Char} (h : 255 < c.toNat) :
    FirstWide (c :: text) ⟨c, 0⟩ := ⟨rfl, h, by simp⟩

theorem FirstWide.behind (h : FirstWide b e) (ha : ∀ c ∈ a, c.toNat ≤ 255) :
    FirstWide (a ++ b) ⟨e.char, a.length + e.position⟩ := by
  refine ⟨?_, h.wide, ?_⟩
  · rw [List.getElem?_append_right (Nat.le_add_right _ _), Nat.add_sub_cancel_left]
    exact h.found
  · intro c hc
    rw [List.take_append, List.take_of_length_le (Nat.le_add_right _ _), Nat.add_sub_cancel_left,
      List.mem_append] at hc
    exact hc.elim (ha c) (h.before c)

theorem FirstWide.lt_length (h : FirstWide a e) : e.position < a.length :=
  (List.getElem?_eq_some_iff.mp h.found).1

theorem FirstWide.append (h : FirstWide a e) (b : List Char) : FirstWide (a ++ b) e := by
  refine ⟨?_, h.wide, ?_⟩
  · rw [List.getElem?_append_left h.lt_length]
    exact h.found
  · rw [List.take_append_of_le_length h.lt_length.le]
    exact h.before

theorem FirstWide.char_mem (h : FirstWide a e) : e.char ∈ a := List.mem_of_getElem? h.found

theorem narrow_or_firstWide (text : List Char) :
    (∀ c ∈ text, c.toNat ≤ 255) ∨ ∃ e, FirstWide text e := by
  induction text with
  | nil => exact Or.inl (by simp)
  | cons c text ih =>
    by_cases hc : c.toNat ≤ 255
    · have hfront : ∀ d ∈ [c], d.toNat ≤ 255 := List.forall_mem_singleton.mpr hc
      rcases ih with htext | ⟨e, he⟩
      · exact Or.inl (List.forall_mem_cons.mpr ⟨hc, htext⟩)
      · exact Or.inr ⟨_, he.behind hfront⟩
    · exact Or.inr ⟨_, firstWide_zero (Nat.lt_of_not_le hc)⟩

end FirstWide

section Writing
variable {table : Table}

theorem cellOf?_of_le {c : Char} (h : c.toNat ≤ 255) : cellOf? c = some (.ofNat c.toNat) :=
  if_pos (by omega)

theorem cellOf?_of_lt {c : Char} (h : 255 < c.toNat) : cellOf? c = none := if_neg (by omega)

theorem extend_eq_continuation {text : List Char} (h : ∀ c ∈ text, c.toNat ≤ 255) (position : ℕ)
    (last : UInt8) (program : String) :
    extend table text position last program = .ok (program ++ continuation table last text) := by
  induction text generalizing position last program with
  | nil => rw [extend, continuation, String.append_empty]
  | cons c text ih =>
    rw [List.forall_mem_cons] at h
    simp only [extend, cellOf?_of_le h.1, ih h.2, continuation]
    rw [String.push_eq_append, String.push_eq_append, String.append_assoc, String.append_assoc,
      String.append_assoc]

theorem extend_eq_error {text : List Char} {e : WideChar} (h : FirstWide text e) (position : ℕ)
    (last : UInt8) (program : String) :
    extend table text position last program = .error ⟨e.char, position + e.position⟩ := by
  induction text generalizing e position last program with
  | nil => exact absurd h.lt_length (Nat.not_lt_zero _)
  | cons c text ih =>
    obtain ⟨char, k⟩ := e
    cases k with
    | zero =>
      obtain rfl : c = char := Option.some.inj h.found
      simp only [extend, cellOf?_of_lt h.wide, Nat.add_zero]
    | succ k =>
      have hc : c.toNat ≤ 255 := h.before c (by simp)
      have hrest : FirstWide text ⟨char, k⟩ := by
        refine ⟨h.found, h.wide, ?_⟩
        intro d hd
        exact h.before d (List.mem_cons_of_mem c hd)
      simp only [extend, cellOf?_of_le hc, ih hrest, Except.error.injEq, WideChar.mk.injEq,
        true_and]
      omega

theorem continuation_append (last : UInt8) (a b : List Char) :
    continuation table last (a ++ b) =
      continuation table last a ++ continuation table (lastByte last a) b := by
  induction a generalizing last with
  | nil =>
    rw [continuation, String.empty_append]
    rfl
  | cons c a ih =>
    rw [List.cons_append, continuation, continuation, ih, lastByte_cons, String.append_assoc]

theorem count_approach (h : ∀ x y, '.' ∉ (table.text x y).toList) (last target : UInt8) :
    (approach table last target).toList.count '.' = 0 := by
  apply List.count_eq_zero.mpr
  unfold approach
  split
  · exact h last target
  · rw [String.toList_append, List.mem_append]
    rintro (hmem | hmem)
    · cases List.mem_singleton.mp hmem
    · exact h 0 target hmem

/-- Each character is printed once, since the ways between the bytes print nothing. -/
theorem count_continuation (h : ∀ x y, '.' ∉ (table.text x y).toList) (last : UInt8)
    (text : List Char) : (continuation table last text).toList.count '.' = text.length := by
  induction text generalizing last with
  | nil => rfl
  | cons c text ih =>
    rw [continuation, String.toList_append, String.toList_push, List.count_append,
      List.count_append, count_approach h, ih, List.length_cons, List.count_singleton_self]
    omega

variable {text : String}

theorem program_eq_continuation (h : ∀ c ∈ text.toList, c.toNat ≤ 255) :
    program table text = .ok (continuation table 0 text.toList) := by
  rw [program, extend_eq_continuation h, String.empty_append]

theorem program_eq_error_iff {e : WideChar} :
    program table text = .error e ↔ FirstWide text.toList e := by
  have herror {e' : WideChar} (h : FirstWide text.toList e') : program table text = .error e' := by
    rw [program, extend_eq_error h, Nat.zero_add]
  refine ⟨fun h => ?_, herror⟩
  rcases narrow_or_firstWide text.toList with hnarrow | ⟨e', he'⟩
  · cases h.symm.trans (program_eq_continuation hnarrow)
  · cases h.symm.trans (herror he')
    exact he'

theorem program_eq_ok_iff {source : String} :
    program table text = .ok source ↔
      (∀ c ∈ text.toList, c.toNat ≤ 255) ∧ source = continuation table 0 text.toList := by
  constructor
  · intro h
    rcases narrow_or_firstWide text.toList with hnarrow | ⟨e, he⟩
    · rw [program_eq_continuation hnarrow, Except.ok.injEq] at h
      exact ⟨hnarrow, h.symm⟩
    · cases h.symm.trans (program_eq_error_iff.mpr he)
  · rintro ⟨hnarrow, rfl⟩
    exact program_eq_continuation hnarrow

end Writing

/-- A text has no program exactly if one of its characters lies above U+00FF, and the first such
character is reported with its position. It is reported whatever follows the text. Behind a text
that has a program, either the first character of the second text above U+00FF is reported, its
position raised by the length of the first text, or the program of the first text is continued by
a program that depends only on the second text and on the last byte of the first one, and that
prints as often as the second text has characters. -/
theorem program_incremental :
    (∀ a : String, (∃ e, program Table.shortest.get a = .error e) ↔
      ∃ c ∈ a.toList, 255 < c.toNat) ∧
    (∀ (a : String) (e : WideChar), program Table.shortest.get a = .error e ↔
      FirstWide a.toList e) ∧
    (∀ (a b : String) (e : WideChar), program Table.shortest.get a = .error e →
      program Table.shortest.get (a ++ b) = .error e) ∧
    ∀ a b p : String, program Table.shortest.get a = .ok p →
      (∃ e, FirstWide b.toList e ∧
        program Table.shortest.get (a ++ b) = .error ⟨e.char, a.length + e.position⟩) ∨
      ((∀ c ∈ b.toList, c.toNat ≤ 255) ∧
        program Table.shortest.get (a ++ b) =
          .ok (p ++ continuation Table.shortest.get (lastByte 0 a.toList) b.toList) ∧
        (continuation Table.shortest.get (lastByte 0 a.toList) b.toList).toList.count '.' =
          b.length) := by
  refine ⟨?_, fun a e => program_eq_error_iff, ?_, ?_⟩
  · intro a
    constructor
    · rintro ⟨e, he⟩
      have hwide := program_eq_error_iff.mp he
      exact ⟨e.char, hwide.char_mem, hwide.wide⟩
    · rintro ⟨c, hc, hwide⟩
      rcases narrow_or_firstWide a.toList with hnarrow | ⟨e, he⟩
      · exact absurd (hnarrow c hc) (Nat.not_le_of_lt hwide)
      · exact ⟨e, program_eq_error_iff.mpr he⟩
  · intro a b e ha
    rw [program_eq_error_iff, String.toList_append]
    exact (program_eq_error_iff.mp ha).append b.toList
  · intro a b p hp
    obtain ⟨hnarrow, rfl⟩ := program_eq_ok_iff.mp hp
    rcases narrow_or_firstWide b.toList with hb | ⟨e, he⟩
    · refine Or.inr ⟨hb, ?_, ?_⟩
      · rw [program_eq_ok_iff, String.toList_append, continuation_append]
        refine ⟨?_, rfl⟩
        intro c hc
        exact (List.mem_append.mp hc).elim (hnarrow c) (hb c)
      · rw [count_continuation ?_, String.length_toList]
        intro x y hdot
        have hsilent := (Table.bounded_shortest.carries x y).silent '.' hdot
        simp at hsilent
    · refine Or.inl ⟨e, he, ?_⟩
      rw [program_eq_error_iff, String.toList_append, ← String.length_toList]
      exact he.behind hnarrow

theorem program_incremental_euro :
    program Table.shortest.get "a€b" = .error ⟨'€', 1⟩ ∧
      program Table.shortest.get ("a€b" ++ "c") = .error ⟨'€', 1⟩ ∧
      ∃ p, program Table.shortest.get "ab" = .ok p ∧
        program Table.shortest.get ("ab" ++ "€") = .error ⟨'€', "ab".length + 0⟩ ∧
        program Table.shortest.get ("ab" ++ "ü") =
          .ok (p ++ continuation Table.shortest.get 98 ['ü']) := by
  obtain ⟨-, hfirst, hkept, hbehind⟩ := program_incremental
  have hwide : FirstWide "a€b".toList ⟨'€', 1⟩ := ⟨by simp, by decide, by simp⟩
  have hp : program Table.shortest.get "ab" = .ok _ := program_eq_continuation (by simp)
  refine ⟨(hfirst _ _).mpr hwide, hkept _ _ _ ((hfirst _ _).mpr hwide), _, hp, ?_, ?_⟩
  · rcases hbehind "ab" "€" _ hp with ⟨e, he, herror⟩ | ⟨hnarrow, -⟩
    · have hchar : e.char = '€' := by simpa using he.char_mem
      have hposition : e.position = 0 := by simpa using he.lt_length
      rwa [hchar, hposition] at herror
    · simp at hnarrow
  · rcases hbehind "ab" "ü" _ hp with ⟨e, he, -⟩ | ⟨-, hok, -⟩
    · have hchar : e.char = 'ü' := by simpa using he.char_mem
      have hwide' : 255 < 'ü'.toNat := hchar ▸ he.wide
      exact absurd hwide' (by decide)
    · exact hok

end Tapecraft.Synthesis
