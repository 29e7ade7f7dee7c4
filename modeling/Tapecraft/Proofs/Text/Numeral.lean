import Mathlib
import Tapecraft.Text.Decimal
import Tapecraft.Text.Integer

/-! # Decimal numerals

What it means that a text stands for an integer is said without a reader: digits with at most one
sign before them. Reading within 64 bits then gives a value exactly for the numerals of the
integers in range, and every way in which this library writes a number can be read back.
-/
namespace Tapecraft

structure IsDigits (text : List Char) : Prop where
  ne_nil : text ≠ []
  isDigit : ∀ c ∈ text, c.isDigit = true

/-- The text stands for the integer: one or more decimal digits, with at most one sign before
them. Zeros in front are allowed. -/
inductive Numeral : List Char → ℤ → Prop
  | plain {text : List Char} (h : IsDigits text) : Numeral text (Nat.ofDigitChars 10 text 0)
  | plus {text : List Char} (h : IsDigits text) :
      Numeral ('+' :: text) (Nat.ofDigitChars 10 text 0)
  | minus {text : List Char} (h : IsDigits text) :
      Numeral ('-' :: text) (-(Nat.ofDigitChars 10 text 0 : ℤ))

section Signs
variable {text : List Char} {value : ℤ}

theorem not_isDigits_nil : ¬ IsDigits [] := fun h => h.ne_nil rfl

theorem not_isDigits_cons {c : Char} (h : c.isDigit = false) : ¬ IsDigits (c :: text) := by
  intro hdigits
  have hc := hdigits.isDigit c List.mem_cons_self
  rw [h] at hc
  cases hc

theorem numeral_plus_iff :
    Numeral ('+' :: text) value ↔ IsDigits text ∧ value = Nat.ofDigitChars 10 text 0 := by
  constructor
  · intro h
    cases h with
    | plain h => exact absurd h (not_isDigits_cons rfl)
    | plus h => exact ⟨h, rfl⟩
  · rintro ⟨h, rfl⟩
    exact .plus h

theorem numeral_minus_iff :
    Numeral ('-' :: text) value ↔ IsDigits text ∧ value = -(Nat.ofDigitChars 10 text 0 : ℤ) := by
  constructor
  · intro h
    cases h with
    | plain h => exact absurd h (not_isDigits_cons rfl)
    | minus h => exact ⟨h, rfl⟩
  · rintro ⟨h, rfl⟩
    exact .minus h

theorem numeral_unsigned_iff (hplus : ∀ rest, text ≠ '+' :: rest)
    (hminus : ∀ rest, text ≠ '-' :: rest) :
    Numeral text value ↔ IsDigits text ∧ value = Nat.ofDigitChars 10 text 0 := by
  constructor
  · intro h
    cases h with
    | plain h => exact ⟨h, rfl⟩
    | plus h => exact absurd rfl (hplus _)
    | minus h => exact absurd rfl (hminus _)
  · rintro ⟨h, rfl⟩
    exact .plain h

end Signs

theorem isDigits_toDigits (n : ℕ) : IsDigits (Nat.toDigits 10 n) :=
  ⟨Nat.toDigits_ne_nil, fun _ hc => Nat.isDigit_of_mem_toDigits (by decide) (by decide) hc⟩

theorem numeral_repr (value : ℤ) : Numeral value.repr.toList value := by
  cases value with
  | ofNat n =>
    have h : Numeral (Nat.toDigits 10 n) _ := .plain (isDigits_toDigits n)
    rw [Nat.ofDigitChars_ten_toDigits] at h
    change Numeral n.repr.toList n
    rwa [Nat.toList_repr]
  | negSucc n =>
    have h : Numeral ('-' :: Nat.toDigits 10 n.succ) _ := .minus (isDigits_toDigits n.succ)
    rw [Nat.ofDigitChars_ten_toDigits] at h
    change Numeral ("-" ++ n.succ.repr).toList (Int.negSucc n)
    rwa [String.toList_append, Nat.toList_repr, Int.negSucc_eq]

theorem Numeral.mem {text : List Char} {value : ℤ} (h : Numeral text value) {c : Char}
    (hc : c ∈ text) : c = '+' ∨ c = '-' ∨ c.isDigit = true := by
  cases h with
  | plain h => exact Or.inr (Or.inr (h.isDigit c hc))
  | plus h =>
    rcases List.mem_cons.mp hc with rfl | hc
    · exact Or.inl rfl
    · exact Or.inr (Or.inr (h.isDigit c hc))
  | minus h =>
    rcases List.mem_cons.mp hc with rfl | hc
    · exact Or.inr (Or.inl rfl)
    · exact Or.inr (Or.inr (h.isDigit c hc))

namespace Integer

/-- A value only grows by further digits, so a bound that it keeps at the end is kept on the
way. -/
theorem le_ofDigitChars (text : List Char) (value : ℕ) :
    value ≤ Nat.ofDigitChars 10 text value := by
  induction text generalizing value with
  | nil => simp
  | cons c text ih =>
    rw [Nat.ofDigitChars_cons]
    exact le_trans (by omega) (ih _)

theorem digits_eq_ok_iff {bound : ℕ} {beyond : IntegerError} {text : List Char} {value n : ℕ}
    (hvalue : value ≤ bound) :
    digits bound beyond text value = .ok n ↔
      (∀ c ∈ text, c.isDigit = true) ∧ n = Nat.ofDigitChars 10 text value ∧ n ≤ bound := by
  induction text generalizing value with
  | nil =>
    rw [digits, Except.ok.injEq, Nat.ofDigitChars_nil]
    constructor
    · rintro rfl
      exact ⟨by simp, rfl, hvalue⟩
    · rintro ⟨-, rfl, -⟩
      rfl
  | cons c text ih =>
    rw [digits, Nat.ofDigitChars_cons, List.forall_mem_cons]
    split
    · next hc =>
      dsimp only
      split
      · next hlarge =>
        have hgrows := le_ofDigitChars text (10 * value + (c.toNat - '0'.toNat))
        refine iff_of_false (by simp) ?_
        rintro ⟨-, rfl, hn⟩
        omega
      · next hsmall => simp only [hc, ih (Nat.le_of_not_lt hsmall), true_and]
    · next hc => simp [hc]

theorem digits_eq_ok_iff_isDigits {bound : ℕ} {beyond : IntegerError} {text : List Char} {n : ℕ}
    (hne : text ≠ []) :
    digits bound beyond text 0 = .ok n ↔
      IsDigits text ∧ n = Nat.ofDigitChars 10 text 0 ∧ n ≤ bound := by
  rw [digits_eq_ok_iff (Nat.zero_le bound)]
  exact and_congr_left' ⟨fun h => ⟨hne, h⟩, fun h => h.isDigit⟩

section Range
variable {text : List Char} {x : Int64}

/-- Digits that are turned into a word by its sign. The bound lets through exactly the digits whose
integer is the value of some word. -/
theorem ofDigits_eq_ok_iff {bound : ℕ} {beyond : IntegerError} {word : ℕ → Int64} {sign : ℤ}
    (hword : ∀ n ≤ bound, (word n).toInt = sign * n)
    (hbound : ∀ n : ℕ, x.toInt = sign * n → n ≤ bound) (hne : text ≠ []) :
    (do return word (← digits bound beyond text 0)) = Except.ok x ↔
      IsDigits text ∧ x.toInt = sign * Nat.ofDigitChars 10 text 0 := by
  constructor
  · intro h
    cases hd : digits bound beyond text 0 with
    | error e => simp [hd, bind, Except.bind] at h
    | ok n =>
      obtain ⟨hdigits, rfl, hn⟩ := (digits_eq_ok_iff_isDigits hne).mp hd
      simp only [hd, bind, Except.bind, pure, Except.pure, Except.ok.injEq] at h
      exact ⟨hdigits, h ▸ hword _ hn⟩
  · rintro ⟨hdigits, hx⟩
    have hn := hbound _ hx
    have hd : digits bound beyond text 0 = .ok (Nat.ofDigitChars 10 text 0) :=
      (digits_eq_ok_iff_isDigits hne).mpr ⟨hdigits, rfl, hn⟩
    have hxn : word (Nat.ofDigitChars 10 text 0) = x :=
      Int64.toInt_inj.mp ((hword _ hn).trans hx.symm)
    simp only [hd, bind, Except.bind, pure, Except.pure, hxn]

theorem ofDigits_nonneg_iff (hne : text ≠ []) :
    (do return Int64.ofNat (← digits maxSigned .tooLarge text 0)) = Except.ok x ↔
      IsDigits text ∧ x.toInt = Nat.ofDigitChars 10 text 0 := by
  have hmax := x.toInt_le
  rw [Int64.toInt_maxValue] at hmax
  rw [ofDigits_eq_ok_iff ?_ ?_ hne, one_mul]
  · intro n hn
    unfold maxSigned at hn
    rw [one_mul, Int64.toInt_ofNat_of_lt (by omega)]
  · intro n hn
    unfold maxSigned
    omega

/-- The lowest integer has no counterpart above, so the bound is one higher behind a minus sign. -/
theorem ofDigits_neg_iff (hne : text ≠ []) :
    (do return Int64.ofInt (-(← digits (maxSigned + 1) .tooSmall text 0))) = Except.ok x ↔
      IsDigits text ∧ x.toInt = -(Nat.ofDigitChars 10 text 0 : ℤ) := by
  have hmin := x.le_toInt
  rw [ofDigits_eq_ok_iff ?_ ?_ hne, neg_one_mul]
  · intro n hn
    unfold maxSigned at hn
    rw [neg_one_mul, Int64.toInt_ofInt_of_le] <;> omega
  · intro n hn
    unfold maxSigned
    omega

theorem readSigned_eq_ok_iff : readSigned text = .ok x ↔ Numeral text x.toInt := by
  fun_cases readSigned text with
  | case1 =>
    rw [numeral_unsigned_iff (by simp) (by simp)]
    exact iff_of_false (by simp) fun h => not_isDigits_nil h.1
  | case2 =>
    rw [numeral_plus_iff]
    exact iff_of_false (by simp) fun h => not_isDigits_nil h.1
  | case3 =>
    rw [numeral_minus_iff]
    exact iff_of_false (by simp) fun h => not_isDigits_nil h.1
  | case4 rest hne =>
    rw [numeral_plus_iff]
    exact ofDigits_nonneg_iff hne
  | case5 rest hne =>
    rw [numeral_minus_iff]
    exact ofDigits_neg_iff hne
  | case6 text hne _ _ hplus hminus =>
    rw [numeral_unsigned_iff hplus hminus]
    exact ofDigits_nonneg_iff hne

end Range

end Integer

namespace Decimal

theorem toList_padded (width n : ℕ) :
    (padded width n).toList =
      List.replicate (width - (Nat.toDigits 10 n).length) '0' ++ Nat.toDigits 10 n :=
  String.toList_ofList

theorem isDigits_padded (width n : ℕ) : IsDigits (padded width n).toList := by
  rw [toList_padded]
  refine ⟨List.append_ne_nil_of_right_ne_nil _ Nat.toDigits_ne_nil, ?_⟩
  intro c hc
  rcases List.mem_append.mp hc with hc | hc
  · rw [List.eq_of_mem_replicate hc]
    rfl
  · exact (isDigits_toDigits n).isDigit c hc

theorem read?_eq_some {text : List Char} (h : IsDigits text) :
    read? text = some (Nat.ofDigitChars 10 text 0) :=
  if_pos ⟨h.ne_nil, List.all_eq_true.mpr h.isDigit⟩

theorem read?_padded (width n : ℕ) : read? (padded width n).toList = some n := by
  rw [read?_eq_some (isDigits_padded width n), toList_padded, Nat.ofDigitChars_append,
    Nat.ofDigitChars_replicate_zero, Nat.mul_zero, Nat.ofDigitChars_ten_toDigits]

theorem signed_eq (i : ℤ) : (signed i).toList =
    (if i < 0 then '-' else '+') :: Nat.toDigits 10 i.natAbs := by
  unfold signed
  split <;> rw [String.toList_append, Nat.toList_repr] <;> rfl

theorem readSigned?_signed (i : ℤ) : readSigned? (signed i).toList = some i := by
  have hread : read? (Nat.toDigits 10 i.natAbs) = some i.natAbs := by
    rw [read?_eq_some (isDigits_toDigits _), Nat.ofDigitChars_ten_toDigits]
  rw [signed_eq]
  split
  · next hneg =>
    have habs : -(i.natAbs : ℤ) = i := by omega
    rw [readSigned?, hread, Option.map_some, Option.some.injEq]
    exact habs
  · next hnonneg =>
    have habs : (i.natAbs : ℤ) = i := by omega
    rw [readSigned?, hread, Option.map_some, Option.some.injEq]
    exact habs

end Decimal

end Tapecraft
