import Mathlib
import Tapecraft.Inputs
import Tapecraft.Proofs.Text.Numeral

/-! # Which texts are lists of inputs

A list of inputs is cut at its commas, and each part has to be a numeral of an integer of 64 bits
with nothing but blanks around it. Such a text is read as the integers of its parts, and of any
other text the first part that is no such numeral is reported.
-/
namespace Tapecraft

structure Trims (text core : List Char) : Prop where
  around : ∃ front back, text = front ++ core ++ back ∧ (∀ c ∈ front, isBlank c = true) ∧
    ∀ c ∈ back, isBlank c = true
  head : ∀ c ∈ core.head?, isBlank c = false
  last : ∀ c ∈ core.getLast?, isBlank c = false

theorem dropWhile_isBlank_append {front rest : List Char} (hfront : ∀ c ∈ front, isBlank c = true)
    (hrest : ∀ c ∈ rest.head?, isBlank c = false) : (front ++ rest).dropWhile isBlank = rest := by
  rw [List.dropWhile_append_of_pos hfront]
  cases rest with
  | nil => rfl
  | cons c rest =>
    have hc : isBlank c = false := hrest c rfl
    rw [List.dropWhile_cons_of_neg (by simp [hc])]

theorem isBlank_eq_false_of_head?_dropWhile {text : List Char} {c : Char}
    (h : c ∈ (text.dropWhile isBlank).head?) : isBlank c = false := by
  have hhead := List.head?_dropWhile_not isBlank text
  rw [Option.mem_def.mp h] at hhead
  simpa using hhead

theorem trims_trimBlanks (text : List Char) : Trims text (trimBlanks text) := by
  set behind := text.dropWhile isBlank with hbehind
  have hcore : behind = trimBlanks text ++ (behind.reverse.takeWhile isBlank).reverse := by
    rw [trimBlanks, ← hbehind, ← List.reverse_append, List.takeWhile_append_dropWhile,
      List.reverse_reverse]
  refine ⟨⟨text.takeWhile isBlank, (behind.reverse.takeWhile isBlank).reverse, ?_, ?_, ?_⟩, ?_, ?_⟩
  · rw [List.append_assoc, ← hcore, hbehind, List.takeWhile_append_dropWhile]
  · intro c hc
    exact List.mem_takeWhile_imp hc
  · intro c hc
    exact List.mem_takeWhile_imp (List.mem_reverse.mp hc)
  · intro c hc
    have hhead : c ∈ behind.head? := by
      rw [hcore]
      exact List.mem_head?_append_of_mem_head? hc
    exact isBlank_eq_false_of_head?_dropWhile hhead
  · intro c hc
    rw [trimBlanks, List.getLast?_reverse] at hc
    exact isBlank_eq_false_of_head?_dropWhile hc

theorem Trims.eq {text core : List Char} (h : Trims text core) : trimBlanks text = core := by
  obtain ⟨⟨front, back, rfl, hfront, hback⟩, hhead, hlast⟩ := h
  have hback' : ∀ c ∈ back.reverse, isBlank c = true := fun c hc => hback c (List.mem_reverse.mp hc)
  rw [trimBlanks, List.append_assoc]
  by_cases hcore : core = []
  · subst hcore
    have hall : ∀ c ∈ front ++ back, isBlank c = true := by
      intro c hc
      exact (List.mem_append.mp hc).elim (hfront c) (hback c)
    rw [List.nil_append, List.dropWhile_eq_nil_iff.mpr hall]
    rfl
  · have hhead' : ∀ c ∈ (core ++ back).head?, isBlank c = false := by
      rw [List.head?_append_of_ne_nil _ hcore]
      exact hhead
    have hlast' : ∀ c ∈ core.reverse.head?, isBlank c = false := by
      rw [List.head?_reverse]
      exact hlast
    rw [dropWhile_isBlank_append hfront hhead', List.reverse_append,
      dropWhile_isBlank_append hback' hlast', List.reverse_reverse]

namespace Inputs

/-- The part stands for the integer: with the blanks around it left out it is a numeral, and the
integer fits in 64 bits. -/
def Item (part : List Char) (value : ℤ) : Prop :=
  ∃ core, Trims part core ∧ Numeral core value ∧ -2 ^ 63 ≤ value ∧ value < 2 ^ 63

theorem item_toInt_iff {part : List Char} {x : Int64} :
    Item part x.toInt ↔ Numeral (trimBlanks part) x.toInt := by
  constructor
  · rintro ⟨core, hcore, hnumeral, -⟩
    rwa [hcore.eq]
  · intro h
    have hmax := x.toInt_le
    rw [Int64.toInt_maxValue] at hmax
    exact ⟨_, trims_trimBlanks part, h, x.le_toInt, by omega⟩

theorem readPart_eq_ok_iff {part : List Char} {x : Int64} :
    readPart part = .ok x ↔ Item part x.toInt := by
  rw [item_toInt_iff, ← Integer.readSigned_eq_ok_iff, readPart]
  cases Integer.readSigned (trimBlanks part) <;> simp

theorem exists_readPart_eq_ok_iff {part : List Char} :
    (∃ x, readPart part = .ok x) ↔ ∃ value, Item part value := by
  constructor
  · rintro ⟨x, hx⟩
    exact ⟨x.toInt, readPart_eq_ok_iff.mp hx⟩
  · rintro ⟨value, hvalue⟩
    obtain ⟨core, -, -, hmin, hmax⟩ := id hvalue
    refine ⟨.ofInt value, readPart_eq_ok_iff.mpr ?_⟩
    rwa [Int64.toInt_ofInt_of_le hmin hmax]

theorem part_of_readPart_eq_error {part : List Char} {e : Malformed}
    (h : readPart part = .error e) : Trims part e.part.toList := by
  rw [readPart] at h
  cases hread : Integer.readSigned (trimBlanks part) with
  | ok value => simp [hread] at h
  | error reason =>
    simp only [hread, Except.error.injEq] at h
    rw [← h, String.toList_ofList]
    exact trims_trimBlanks part

section Parts
variable {parts : List (List Char)}

theorem forall₂_item_of_mapM_eq_ok {xs : List Int64} (h : parts.mapM readPart = .ok xs) :
    List.Forall₂ (fun part x => Item part x.toInt) parts xs := by
  induction parts generalizing xs with
  | nil =>
    cases h
    exact .nil
  | cons part parts ih =>
    rw [List.mapM_cons] at h
    cases hpart : readPart part with
    | error e => simp [hpart, bind, Except.bind] at h
    | ok x =>
      cases hrest : parts.mapM readPart with
      | error e => simp [hpart, hrest, bind, Except.bind] at h
      | ok rest =>
        simp only [hpart, hrest, bind, Except.bind, pure, Except.pure, Except.ok.injEq] at h
        exact h ▸ .cons (readPart_eq_ok_iff.mp hpart) (ih hrest)

theorem mapM_eq_ok_of_forall₂_item {xs : List Int64}
    (h : List.Forall₂ (fun part x => Item part x.toInt) parts xs) :
    parts.mapM readPart = .ok xs := by
  induction h with
  | nil => rfl
  | cons hitem _ ih =>
    rw [List.mapM_cons, readPart_eq_ok_iff.mpr hitem, ih]
    rfl

theorem exists_item_of_forall₂ {xs : List Int64}
    (h : List.Forall₂ (fun part x => Item part x.toInt) parts xs) {part : List Char}
    (hpart : part ∈ parts) : ∃ value, Item part value := by
  induction h with
  | nil => cases hpart
  | cons hitem _ ih =>
    rcases List.mem_cons.mp hpart with rfl | hpart
    · exact ⟨_, hitem⟩
    · exact ih hpart

/-- The parts are read from left to right, and the first that cannot be read ends it. -/
theorem exists_first_of_mapM_eq_error {e : Malformed} (h : parts.mapM readPart = .error e) :
    ∃ front part back, parts = front ++ part :: back ∧
      (∀ p ∈ front, ∃ x, readPart p = .ok x) ∧ readPart part = .error e := by
  induction parts with
  | nil => cases h
  | cons part parts ih =>
    rw [List.mapM_cons] at h
    cases hpart : readPart part with
    | error e' =>
      simp only [hpart, bind, Except.bind, Except.error.injEq] at h
      exact ⟨[], part, parts, rfl, by simp, h ▸ hpart⟩
    | ok x =>
      cases hrest : parts.mapM readPart with
      | ok xs => simp [hpart, hrest, bind, Except.bind, pure, Except.pure] at h
      | error e' =>
        simp only [hpart, hrest, bind, Except.bind, Except.error.injEq] at h
        obtain ⟨front, bad, back, rfl, hfront, hbad⟩ := ih (h ▸ hrest)
        refine ⟨part :: front, bad, back, rfl, ?_, hbad⟩
        exact List.forall_mem_cons.mpr ⟨⟨x, hpart⟩, hfront⟩

end Parts

/-- There is one part more than there are commas. -/
theorem length_splitOn (text : List Char) : (text.splitOn ',').length = text.count ',' + 1 := by
  induction text with
  | nil => rfl
  | cons c text ih =>
    rw [List.splitOn_cons_eq_if_modifyHead, List.count_cons]
    split <;> simp [ih]

/-- An integer as it may stand in a list, with blanks around it. -/
structure Entry where
  before : List Char
  value : Int64
  behind : List Char
  blank_before : ∀ c ∈ before, isBlank c = true
  blank_behind : ∀ c ∈ behind, isBlank c = true

namespace Entry

def text (e : Entry) : List Char := e.before ++ e.value.toInt.repr.toList ++ e.behind

theorem isBlank_eq_false_of_mem_repr {value : ℤ} {c : Char} (h : c ∈ value.repr.toList) :
    isBlank c = false := by
  rcases (numeral_repr value).mem h with rfl | rfl | hc
  · rfl
  · rfl
  · have hrange : 48 ≤ c.toNat ∧ c.toNat ≤ 57 := Char.isDigit_iff_toNat.mp hc
    simp only [isBlank, Bool.or_eq_false_iff, Bool.and_eq_false_iff, decide_eq_false_iff_not,
      beq_eq_false_iff_ne]
    omega

theorem item_text (e : Entry) : Item e.text e.value.toInt := by
  have htrims : Trims e.text e.value.toInt.repr.toList := by
    refine ⟨⟨e.before, e.behind, rfl, e.blank_before, e.blank_behind⟩, ?_, ?_⟩
    · intro c hc
      exact isBlank_eq_false_of_mem_repr (List.mem_of_mem_head? hc)
    · intro c hc
      exact isBlank_eq_false_of_mem_repr (List.mem_of_mem_getLast? hc)
  rw [item_toInt_iff, htrims.eq]
  exact numeral_repr _

theorem comma_not_mem_text (e : Entry) : ',' ∉ e.text := by
  intro h
  rw [text, List.mem_append, List.mem_append] at h
  rcases h with (h | h) | h
  · cases e.blank_before _ h
  · rcases (numeral_repr _).mem h with hc | hc | hc <;> cases hc
  · cases e.blank_behind _ h

end Entry

theorem parse_entries {entries : List Entry} (hne : entries ≠ []) :
    parse (.ofList ([','].intercalate (entries.map Entry.text))) =
      .ok (entries.map Entry.value) := by
  have hcomma : ∀ part ∈ entries.map Entry.text, ',' ∉ part := by
    intro part hpart
    obtain ⟨e, -, rfl⟩ := List.mem_map.mp hpart
    exact e.comma_not_mem_text
  rw [parse, String.toList_ofList, List.splitOn_intercalate ',' hcomma (by simpa using hne)]
  apply mapM_eq_ok_of_forall₂_item
  rw [List.forall₂_map_left_iff, List.forall₂_map_right_iff, List.forall₂_same]
  intro e _
  exact e.item_text

/-- A text is read as a list exactly if each of its parts between commas is, without the blanks
around it, a numeral of an integer of 64 bits, and the list then holds these integers in order, one
more than there are commas. Otherwise the first part that is not is reported, without its blanks.
So integers that are written with commas between them and blanks around them are read back, and
the empty text is no list. -/
theorem parse_by_grammar :
    (∀ (text : String) (xs : List Int64), parse text = .ok xs ↔
      List.Forall₂ (fun part x => Item part x.toInt) (text.toList.splitOn ',') xs) ∧
    (∀ text : String, (∃ xs, parse text = .ok xs) ↔
      ∀ part ∈ text.toList.splitOn ',', ∃ value, Item part value) ∧
    (∀ (text : String) (xs : List Int64), parse text = .ok xs →
      xs.length = text.toList.count ',' + 1) ∧
    (∀ (text : String) (e : Malformed), parse text = .error e →
      ∃ front part back, text.toList.splitOn ',' = front ++ part :: back ∧
        (∀ p ∈ front, ∃ value, Item p value) ∧ (¬ ∃ value, Item part value) ∧
        Trims part e.part.toList) ∧
    (∀ entries : List Entry, entries ≠ [] →
      parse (.ofList ([','].intercalate (entries.map Entry.text))) =
        .ok (entries.map Entry.value)) ∧
    parse "" = .error ⟨"", .empty⟩ := by
  have hok (text : String) (xs : List Int64) : parse text = .ok xs ↔
      List.Forall₂ (fun part x => Item part x.toInt) (text.toList.splitOn ',') xs :=
    ⟨forall₂_item_of_mapM_eq_ok, mapM_eq_ok_of_forall₂_item⟩
  have hfirst (text : String) (e : Malformed) (h : parse text = .error e) :
      ∃ front part back, text.toList.splitOn ',' = front ++ part :: back ∧
        (∀ p ∈ front, ∃ value, Item p value) ∧ (¬ ∃ value, Item part value) ∧
        Trims part e.part.toList := by
    obtain ⟨front, part, back, hparts, hfront, hpart⟩ := exists_first_of_mapM_eq_error h
    refine ⟨front, part, back, hparts, ?_, ?_, part_of_readPart_eq_error hpart⟩
    · intro p hp
      exact exists_readPart_eq_ok_iff.mp (hfront p hp)
    · intro hitem
      obtain ⟨x, hx⟩ := exists_readPart_eq_ok_iff.mpr hitem
      cases hx.symm.trans hpart
  refine ⟨hok, ?_, ?_, hfirst, fun _ => parse_entries, rfl⟩
  · intro text
    constructor
    · rintro ⟨xs, hxs⟩ part hpart
      exact exists_item_of_forall₂ ((hok text xs).mp hxs) hpart
    · intro hitems
      cases h : parse text with
      | ok xs => exact ⟨xs, rfl⟩
      | error e =>
        obtain ⟨front, part, back, hparts, -, hpart, -⟩ := hfirst text e h
        exact absurd (hitems part (by simp [hparts])) hpart
  · intro text xs h
    rw [← length_splitOn]
    exact ((hok text xs).mp h).length_eq.symm

theorem parse_by_grammar_lowest :
    parse " -1 ,-9223372036854775808\u2003" = .ok [-1, -9223372036854775808] ∧
      [-1, -9223372036854775808].length = " -1 ,-9223372036854775808\u2003".toList.count ',' + 1 ∧
      parse "+5, x,y" = .error ⟨"x", .invalidDigit⟩ ∧
      ∃ front part back, "+5, x,y".toList.splitOn ',' = front ++ part :: back ∧
        (∀ p ∈ front, ∃ value, Item p value) ∧ (¬ ∃ value, Item part value) ∧
        Trims part "x".toList := by
  obtain ⟨-, -, hlength, hfirst, hentries, -⟩ := parse_by_grammar
  let entries : List Entry := [⟨[' '], -1, [' '], by simp [isBlank], by simp [isBlank]⟩,
    ⟨[], -9223372036854775808, ['\u2003'], by simp, by simp [isBlank]⟩]
  have htext : String.ofList ([','].intercalate (entries.map Entry.text)) =
      " -1 ,-9223372036854775808\u2003" := by decide +kernel
  have hread : parse " -1 ,-9223372036854775808\u2003" = .ok [-1, -9223372036854775808] := by
    rw [← htext]
    exact hentries entries (by simp [entries])
  have hbad : parse "+5, x,y" = .error ⟨"x", .invalidDigit⟩ := by rfl
  exact ⟨hread, hlength _ _ hread, hbad, hfirst _ _ hbad⟩

end Inputs

end Tapecraft
