import Mathlib
import Tapecraft.Cli.Formats

/-! # What is relied on of the formats

An outcome can always be written, and what was written tells which outcome it is. The JSON texts
that the program runs with are of this kind: no escape is the front of another and none begins with
a quote, so a string ends where its closing quote is, and a number ends where its digits do.
-/
namespace Tapecraft.Cli

structure Formats.Lossless (formats : Formats) : Prop where
  total : ∀ o, ∃ text, formats.json o = .ok text
  faithful : ∀ {o o' : Outcome} {text : String},
    formats.json o = .ok text → formats.json o' = .ok text → o = o'

namespace Json

/-- The code of a character that is not written as it is. -/
def IsSpecial (n : ℕ) : Prop := n < 32 ∨ n = 34 ∨ n = 92

instance (n : ℕ) : Decidable (IsSpecial n) := inferInstanceAs (Decidable (n < 32 ∨ n = 34 ∨ n = 92))

theorem escape_of_not_isSpecial {c : Char} (h : ¬ IsSpecial c.toNat) : escape c = [c] := by
  unfold escape
  split
  iterate 7 exact absurd (by decide) h
  rw [if_neg]
  exact fun hlt => h (Or.inl hlt)

theorem head?_escape_ofNat :
    ∀ n < 93, IsSpecial n → (escape (.ofNat n)).head? = some '\\' := by decide +kernel

theorem eq_of_isPrefix_ofNat : ∀ m < 93, ∀ n < 93, IsSpecial m → IsSpecial n →
    (escape (.ofNat m)).isPrefixOf (escape (.ofNat n)) = true → m = n := by decide +kernel

theorem IsSpecial.lt {n : ℕ} (h : IsSpecial n) : n < 93 := by
  rcases h with h | h | h <;> omega

theorem eq_of_escape_front {c d : Char} (hc : IsSpecial c.toNat) (hd : IsSpecial d.toNat)
    (h : escape c <+: escape d) : c = d := by
  have hcodes := eq_of_isPrefix_ofNat c.toNat hc.lt d.toNat hd.lt hc hd
  rw [Char.ofNat_toNat, Char.ofNat_toNat] at hcodes
  exact Char.toNat_inj.mp (hcodes (List.isPrefixOf_iff_prefix.mpr h))

theorem head?_escape (c : Char) :
    (escape c).head? = some (if IsSpecial c.toNat then '\\' else c) := by
  split
  · next h =>
    have hhead := head?_escape_ofNat c.toNat h.lt h
    rwa [Char.ofNat_toNat] at hhead
  · next h => rw [escape_of_not_isSpecial h, List.head?_singleton]

theorem escape_append_inj {c d : Char} {x y : List Char} (h : escape c ++ x = escape d ++ y) :
    c = d ∧ x = y := by
  have hcd : c = d := by
    have hheads := congrArg List.head? h
    rw [List.head?_append, List.head?_append, head?_escape, head?_escape, Option.some_or,
      Option.some_or, Option.some.injEq] at hheads
    have hbackslash : IsSpecial '\\'.toNat := by decide
    by_cases hc : IsSpecial c.toNat <;> by_cases hd : IsSpecial d.toNat
    · rcases List.prefix_or_prefix_of_prefix (List.prefix_append _ x)
        (h ▸ List.prefix_append _ y) with hfront | hfront
      · exact eq_of_escape_front hc hd hfront
      · exact (eq_of_escape_front hd hc hfront).symm
    · rw [if_pos hc, if_neg hd] at hheads
      exact absurd (hheads ▸ hbackslash) hd
    · rw [if_neg hc, if_pos hd] at hheads
      exact absurd (hheads ▸ hbackslash) hc
    · rwa [if_neg hc, if_neg hd] at hheads
  subst hcd
  exact ⟨rfl, List.append_cancel_left h⟩

theorem escape_append_ne_quote (c : Char) (x y : List Char) : escape c ++ x ≠ '"' :: y := by
  intro h
  have hheads := congrArg List.head? h
  rw [List.head?_append, head?_escape, Option.some_or, List.head?_cons, Option.some.injEq] at hheads
  split at hheads
  · exact absurd hheads (by decide)
  · next hc =>
    rw [hheads] at hc
    exact hc (by decide)

/-- A string ends at its first quote that is not escaped. -/
theorem flatMap_escape_inj {l l' x y : List Char}
    (h : l.flatMap escape ++ '"' :: x = l'.flatMap escape ++ '"' :: y) : l = l' ∧ x = y := by
  induction l generalizing l' with
  | nil =>
    cases l' with
    | nil => exact ⟨rfl, (List.cons.inj h).2⟩
    | cons d l' =>
      rw [List.flatMap_cons, List.append_assoc] at h
      exact absurd h.symm (escape_append_ne_quote d _ _)
  | cons c l ih =>
    rw [List.flatMap_cons, List.append_assoc] at h
    cases l' with
    | nil => exact absurd h (escape_append_ne_quote c _ _)
    | cons d l' =>
      rw [List.flatMap_cons, List.append_assoc] at h
      obtain ⟨rfl, hrest⟩ := escape_append_inj h
      obtain ⟨rfl, rfl⟩ := ih hrest
      exact ⟨rfl, rfl⟩

theorem takeWhile_repr (n : ℕ) {c : Char} (hc : c.isDigit = false) (x : List Char) :
    (n.repr.toList ++ c :: x).takeWhile Char.isDigit = Nat.toDigits 10 n := by
  have hdigits : ∀ d ∈ Nat.toDigits 10 n, d.isDigit = true :=
    fun d hd => Nat.isDigit_of_mem_toDigits (by decide) (by decide) hd
  rw [Nat.toList_repr, List.takeWhile_append_of_pos hdigits,
    List.takeWhile_cons_of_neg (by simp [hc]), List.append_nil]

/-- A number ends where its digits do. -/
theorem repr_append_inj {m n : ℕ} {c : Char} (hc : c.isDigit = false) {x y : List Char}
    (h : m.repr.toList ++ c :: x = n.repr.toList ++ c :: y) : m = n ∧ x = y := by
  have hdigits := congrArg (List.takeWhile Char.isDigit) h
  rw [takeWhile_repr m hc, takeWhile_repr n hc] at hdigits
  have hmn := congrArg (Nat.ofDigitChars 10 · 0) hdigits
  simp only [Nat.ofDigitChars_ten_toDigits] at hmn
  subst hmn
  exact ⟨rfl, (List.cons.inj (List.append_cancel_left h)).2⟩

/-- The fixed parts of an object do not matter to what it tells. -/
theorem eq_of_object_eq (o o' : Outcome) {opening first second closing : String}
    (h : opening ++ quote o.output ++ "," ++ first ++ o.executed.repr ++ "," ++ second ++
        o.touched.repr ++ "\n" ++ closing =
      opening ++ quote o'.output ++ "," ++ first ++ o'.executed.repr ++ "," ++ second ++
        o'.touched.repr ++ "\n" ++ closing) : o = o' := by
  have hcomma : ",".toList = [','] := rfl
  have hquote : "\"".toList = ['"'] := rfl
  have hnewline : "\n".toList = ['\n'] := rfl
  have hlist := congrArg String.toList h
  simp only [quote, String.toList_append, String.toList_ofList, hcomma, hquote, hnewline,
    List.append_assoc, List.cons_append, List.nil_append] at hlist
  have hstring := (List.cons.inj (List.append_cancel_left hlist)).2
  obtain ⟨houtput, hrest⟩ := flatMap_escape_inj hstring
  have hcounts := List.append_cancel_left (List.cons.inj hrest).2
  obtain ⟨hexecuted, hrest⟩ := repr_append_inj (c := ',') rfl hcounts
  have hcount := List.append_cancel_left hrest
  obtain ⟨htouched, -⟩ := repr_append_inj (c := '\n') rfl hcount
  have hsame := String.toList_inj.mp houtput
  cases o
  cases o'
  simp_all

theorem ofOutcome_injective : Function.Injective ofOutcome := fun o o' h => eq_of_object_eq o o' h

end Json

theorem Formats.lossless_usual (explain : String → String) : (usual explain).Lossless := by
  refine ⟨fun o => ⟨_, rfl⟩, fun {o o' text} ho ho' => ?_⟩
  exact Json.ofOutcome_injective (Except.ok.inj (ho.trans ho'.symm))

end Tapecraft.Cli
