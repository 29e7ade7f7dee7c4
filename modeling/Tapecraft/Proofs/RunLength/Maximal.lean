import Mathlib
import Tapecraft.Proofs.RunLength.Expansion

/-! # Runs are maximal

A text is cut into runs in just one way, if no two runs of the same repeatable character stand one
behind the other. So the runs of a text are its maximal ones, and a text in which no repeatable
character stands twice in a row has runs of one only. Shortening gives such a text, which is
therefore not shortened further. A length is written in fewer characters than the run has itself
as soon as the run is longer than two, so shortening never makes a text longer.
-/
namespace Tapecraft.RunLength
open Command

/-- The second character does not go on with the run that the first one belongs to. -/
def Apart (a b : Char) : Prop := ¬ (a = b ∧ isRepeatable a = true)

theorem apart_of_isDigit {a b : Char} (h : a.isDigit = true) : Apart a b := by
  rintro ⟨-, hrepeatable⟩
  simp only [isRepeatable, Bool.or_eq_true, decide_eq_true_eq] at hrepeatable
  rcases hrepeatable with ((((rfl | rfl) | rfl) | rfl) | rfl) | rfl <;> cases h

/-! ## The only way to cut a text into runs -/

theorem spelledOut_append (a b : List (Char × ℕ)) :
    spelledOut (a ++ b) = spelledOut a ++ spelledOut b := List.flatMap_append

theorem head?_spelledOut {rs : List (Char × ℕ)} (h : ∀ r ∈ rs, IsRun r) :
    (spelledOut rs).head? = (rs.map Prod.fst).head? := by
  cases rs with
  | nil => rfl
  | cons r rs =>
    have hpos : r.2 ≠ 0 := (h r List.mem_cons_self).pos.ne'
    rw [spelledOut_run_cons, List.head?_append, List.head?_replicate, if_neg hpos]
    rfl

theorem getLast?_spelledOut {rs : List (Char × ℕ)} (h : ∀ r ∈ rs, IsRun r) :
    (spelledOut rs).getLast? = (rs.map Prod.fst).getLast? := by
  induction rs with
  | nil => rfl
  | cons r rs ih =>
    obtain ⟨hr, hrs⟩ := List.forall_mem_cons.mp h
    rw [spelledOut_run_cons, List.getLast?_append, List.getLast?_replicate, if_neg hr.pos.ne',
      ih hrs, List.map_cons, ← List.singleton_append, List.getLast?_append]
    rfl

theorem isChain_runs (text : List Char) : ((runs text).map Prod.fst).IsChain Apart := by
  induction text with
  | nil => exact .nil
  | cons c text ih =>
    change ((cons c (runs text)).map Prod.fst).IsChain Apart
    cases hrs : runs text with
    | nil => exact .singleton c
    | cons r rest =>
      obtain ⟨d, count⟩ := r
      rw [hrs] at ih
      rw [cons]
      split
      · exact ih
      · next hjoin => exact List.isChain_cons_cons.mpr ⟨hjoin, ih⟩

theorem runs_replicate_append {c : Char} {n : ℕ} (hrun : IsRun (c, n)) {text : List Char}
    (h : ∀ d ∈ ((runs text).map Prod.fst).head?, Apart c d) :
    runs (List.replicate n c ++ text) = (c, n) :: runs text := by
  induction n with
  | zero => exact absurd hrun.pos (Nat.lt_irrefl 0)
  | succ n ih =>
    rw [List.replicate_succ, List.cons_append]
    change cons c (runs (List.replicate n c ++ text)) = _
    rcases Nat.eq_zero_or_pos n with rfl | hpos
    · rw [List.replicate_zero, List.nil_append]
      cases hrs : runs text with
      | nil => rfl
      | cons r rest =>
        obtain ⟨d, count⟩ := r
        have hd : Apart c d := h d (by rw [hrs]; rfl)
        rw [cons, if_neg hd]
    · have hrepeatable : isRepeatable c = true := hrun.repeatable (Nat.succ_lt_succ hpos)
      rw [ih ⟨hpos, fun _ => hrepeatable⟩, cons, if_pos ⟨rfl, hrepeatable⟩]

theorem runs_spelledOut {rs : List (Char × ℕ)} (hruns : ∀ r ∈ rs, IsRun r)
    (hapart : (rs.map Prod.fst).IsChain Apart) : runs (spelledOut rs) = rs := by
  induction rs with
  | nil => rfl
  | cons r rs ih =>
    rw [List.map_cons, List.isChain_cons] at hapart
    obtain ⟨hhead, htail⟩ := hapart
    obtain ⟨hr, hrs⟩ := List.forall_mem_cons.mp hruns
    have hrest := ih hrs htail
    rw [spelledOut_run_cons, runs_replicate_append hr, hrest]
    rwa [hrest]

/-! ## Texts that are short already -/

/-- Shortening has nothing to do: all characters are kept, and no run is longer than one. -/
structure IsShort (text : List Char) : Prop where
  kept : ∀ c ∈ text, isKept c = true
  apart : text.IsChain Apart

theorem spelledOut_map_one (text : List Char) : spelledOut (text.map (·, 1)) = text := by
  induction text with
  | nil => rfl
  | cons c text ih => rw [List.map_cons, spelledOut_run_cons, ih]; rfl

theorem flatMap_runText_map_one (text : List Char) : (text.map (·, 1)).flatMap runText = text := by
  induction text with
  | nil => rfl
  | cons c text ih => rw [List.map_cons, List.flatMap_cons, ih]; rfl

theorem IsShort.runs_eq {text : List Char} (h : IsShort text) : runs text = text.map (·, 1) := by
  have hruns : ∀ r ∈ text.map (·, 1), IsRun r := by
    intro r hr
    obtain ⟨c, -, rfl⟩ := List.mem_map.mp hr
    exact isRun_one c
  have hapart : ((text.map (·, 1)).map Prod.fst).IsChain Apart := by
    rw [List.map_map, Function.comp_def, List.map_id']
    exact h.apart
  rw [← runs_spelledOut hruns hapart, spelledOut_map_one]

theorem IsShort.shortenList_eq {text : List Char} (h : IsShort text) :
    shortenList text = text := by
  rw [shortenList, List.filter_eq_self.mpr h.kept, h.runs_eq, flatMap_runText_map_one]

theorem mem_runText {r : Char × ℕ} {c : Char} (h : c ∈ runText r) :
    c = r.1 ∨ c.isDigit = true := by
  obtain ⟨d, count⟩ := r
  rw [runText] at h
  split at h
  · exact Or.inl (List.mem_singleton.mp h)
  · rcases List.mem_cons.mp h with rfl | hdigit
    · exact Or.inl rfl
    · exact Or.inr (Nat.isDigit_of_mem_toDigits (by decide) (by decide) hdigit)

theorem isChain_runText (r : Char × ℕ) : (runText r).IsChain Apart := by
  obtain ⟨c, count⟩ := r
  have hdigit {d : Char} (hd : d ∈ Nat.toDigits 10 count) : d.isDigit = true :=
    Nat.isDigit_of_mem_toDigits (by decide) (by decide) hd
  rw [runText]
  split
  · exact .singleton c
  · refine List.isChain_cons.mpr ⟨?_, ?_⟩
    · rintro d hd ⟨rfl, hrepeatable⟩
      exact apart_of_isDigit (hdigit (List.mem_of_mem_head? hd)) ⟨rfl, hrepeatable⟩
    · apply List.Pairwise.isChain
      apply List.pairwise_of_forall_mem_list
      intro d hd e _
      exact apart_of_isDigit (hdigit hd)

theorem isChain_flatMap_runText {rs : List (Char × ℕ)} (h : (rs.map Prod.fst).IsChain Apart) :
    (rs.flatMap runText).IsChain Apart := by
  induction rs with
  | nil => exact .nil
  | cons r rs ih =>
    rw [List.map_cons, List.isChain_cons] at h
    obtain ⟨hhead, htail⟩ := h
    rw [List.flatMap_cons]
    refine List.isChain_append.mpr ⟨isChain_runText r, ih htail, ?_⟩
    intro c hc d hd
    rw [head?_flatMap_runText] at hd
    rcases mem_runText (List.mem_of_getLast? hc) with rfl | hdigit
    · exact hhead d hd
    · exact apart_of_isDigit hdigit

theorem isKept_of_mem_runText {r : Char × ℕ} (h : isKept r.1 = true) {c : Char}
    (hc : c ∈ runText r) : isKept c = true := by
  rcases mem_runText hc with rfl | hdigit
  · exact h
  · rw [isKept, hdigit, Bool.or_true]

theorem isShort_shortenList (text : List Char) : IsShort (shortenList text) := by
  refine ⟨?_, isChain_flatMap_runText (isChain_runs _)⟩
  intro c hc
  obtain ⟨r, hr, hc⟩ := List.mem_flatMap.mp hc
  exact isKept_of_mem_runText (List.of_mem_filter (fst_mem_of_mem_runs hr)) hc

theorem shortenList_eq_self_iff {text : List Char} : shortenList text = text ↔ IsShort text := by
  constructor
  · intro h
    rw [← h]
    exact isShort_shortenList text
  · intro h
    exact h.shortenList_eq

/-! ## The characters of a shortened text, by name -/

theorem isRepeatable_iff {c : Char} : isRepeatable c = true ↔ ∃ a, c = (action a).toChar := by
  constructor
  · intro h
    simp only [isRepeatable, Bool.or_eq_true, decide_eq_true_eq] at h
    rcases h with ((((rfl | rfl) | rfl) | rfl) | rfl) | rfl
    · exact ⟨.left, rfl⟩
    · exact ⟨.right, rfl⟩
    · exact ⟨.increment, rfl⟩
    · exact ⟨.decrement, rfl⟩
    · exact ⟨.read, rfl⟩
    · exact ⟨.print, rfl⟩
  · rintro ⟨a, rfl⟩
    cases a <;> rfl

theorem isKept_iff_mem {c : Char} : isKept c = true ↔ c ∈ characters ∨ c.isDigit = true := by
  cases hdigit : c.isDigit with
  | false => simp [isKept_iff hdigit]
  | true => simp [isKept, hdigit]

theorem isChain_apart_iff {text : List Char} :
    text.IsChain Apart ↔ ∀ a, ¬ [(action a).toChar, (action a).toChar] <:+: text := by
  rw [List.isChain_iff_forall_rel_of_append_cons_cons]
  constructor
  · rintro h a ⟨front, back, rfl⟩
    have hsplit : front ++ [(action a).toChar, (action a).toChar] ++ back =
        front ++ (action a).toChar :: (action a).toChar :: back := by simp
    exact h hsplit ⟨rfl, isRepeatable_iff.mpr ⟨a, rfl⟩⟩
  · rintro h c d front back rfl ⟨rfl, hrepeatable⟩
    obtain ⟨a, rfl⟩ := isRepeatable_iff.mp hrepeatable
    exact h a ⟨front, back, by simp⟩

theorem isShort_iff {text : List Char} :
    IsShort text ↔ (∀ c ∈ text, c ∈ characters ∨ c.isDigit = true) ∧
      ∀ a, ¬ [(action a).toChar, (action a).toChar] <:+: text := by
  rw [← isChain_apart_iff]
  constructor
  · rintro ⟨hkept, hapart⟩
    exact ⟨fun c hc => isKept_iff_mem.mp (hkept c hc), hapart⟩
  · rintro ⟨hkept, hapart⟩
    exact ⟨fun c hc => isKept_iff_mem.mpr (hkept c hc), hapart⟩

/-- A shortened text is not shortened further. Those texts stay as they are that hold commands and
digits only and no action twice in a row. -/
theorem shorten_fixed_points (text : String) :
    shorten (shorten text) = shorten text ∧
    (shorten text = text ↔
      (∀ c ∈ text.toList, c ∈ characters ∨ c.isDigit = true) ∧
        ∀ a, ¬ [(action a).toChar, (action a).toChar] <:+: text.toList) := by
  constructor
  · rw [shorten, shorten, String.toList_ofList, (isShort_shortenList _).shortenList_eq]
  · have hlist : shorten text = text ↔ shortenList text.toList = text.toList := by
      rw [← String.toList_inj, shorten, String.toList_ofList]
    rw [hlist, shortenList_eq_self_iff, isShort_iff]

example : shorten "++4" = "+24" ∧ shorten "+24" = "+24" := by decide +kernel

/-! ## What shortening saves -/

/-- So many of a character stand in a row in the text, and it stands neither before nor behind
them. -/
def HasMaximalRun (text : List Char) (c : Char) (n : ℕ) : Prop :=
  ∃ front back, text = front ++ List.replicate n c ++ back ∧
    front.getLast? ≠ some c ∧ back.head? ≠ some c

theorem hasMaximalRun_of_mem_runs {text : List Char} {c : Char} {n : ℕ}
    (hc : isRepeatable c = true) (h : (c, n) ∈ runs text) : HasMaximalRun text c n := by
  obtain ⟨before, behind, hsplit⟩ := List.append_of_mem h
  have hruns : ∀ r ∈ before ++ (c, n) :: behind, IsRun r := hsplit ▸ isRun_of_mem_runs
  obtain ⟨hfront, hrest⟩ := List.forall_mem_append.mp hruns
  obtain ⟨-, hback⟩ := List.forall_mem_cons.mp hrest
  have hapart := isChain_runs text
  rw [hsplit, List.map_append, List.map_cons] at hapart
  obtain ⟨-, hbehind, hbefore⟩ := List.isChain_append.mp hapart
  refine ⟨spelledOut before, spelledOut behind, ?_, ?_, ?_⟩
  · rw [← spelledOut_runs text, hsplit, spelledOut_append, spelledOut_run_cons, List.append_assoc]
  · rw [getLast?_spelledOut hfront]
    intro hlast
    exact hbefore c hlast c rfl ⟨rfl, hc⟩
  · rw [head?_spelledOut hback]
    intro hhead
    exact (List.isChain_cons.mp hbehind).1 c hhead ⟨rfl, hc⟩

/-- A maximal run is a run of the text, and what stands before and behind it is cut by itself. -/
theorem runs_append_replicate_append {front back : List Char} {c : Char} {n : ℕ}
    (hrun : IsRun (c, n)) (hlast : front.getLast? ≠ some c) (hhead : back.head? ≠ some c) :
    runs (front ++ List.replicate n c ++ back) = runs front ++ (c, n) :: runs back := by
  have hruns : ∀ r ∈ runs front ++ (c, n) :: runs back, IsRun r := by
    rw [List.forall_mem_append, List.forall_mem_cons]
    exact ⟨isRun_of_mem_runs, hrun, isRun_of_mem_runs⟩
  have hbehind : (c :: (runs back).map Prod.fst).IsChain Apart := by
    refine List.isChain_cons.mpr ⟨?_, isChain_runs back⟩
    rintro d hd ⟨rfl, -⟩
    rw [← head?_spelledOut isRun_of_mem_runs, spelledOut_runs] at hd
    exact hhead hd
  have hapart : ((runs front ++ (c, n) :: runs back).map Prod.fst).IsChain Apart := by
    rw [List.map_append, List.map_cons]
    refine List.isChain_append.mpr ⟨isChain_runs front, hbehind, ?_⟩
    rintro d hd e he ⟨rfl, -⟩
    rw [← getLast?_spelledOut isRun_of_mem_runs, spelledOut_runs] at hd
    cases he
    exact hlast hd
  rw [← runs_spelledOut hruns hapart, spelledOut_append, spelledOut_run_cons, spelledOut_runs,
    spelledOut_runs, List.append_assoc]

theorem HasMaximalRun.mem_runs {text : List Char} {c : Char} {n : ℕ} (h : HasMaximalRun text c n)
    (hrun : IsRun (c, n)) : (c, n) ∈ runs text := by
  obtain ⟨front, back, rfl, hlast, hhead⟩ := h
  rw [runs_append_replicate_append hrun hlast hhead]
  exact List.mem_append_right _ List.mem_cons_self

theorem length_toDigits_add_two_le {n : ℕ} (h : 3 ≤ n) :
    (Nat.toDigits 10 n).length + 2 ≤ n := by
  have hpow : n < 10 ^ (n - 2) := by
    induction n, h using Nat.le_induction with
    | base => decide
    | succ n hn ih =>
      have hexponent : n + 1 - 2 = n - 2 + 1 := by omega
      rw [hexponent, pow_succ]
      omega
  have hlength : (Nat.toDigits 10 n).length ≤ n - 2 :=
    (Nat.length_toDigits_le_iff (by decide) (by omega)).mpr hpow
  omega

theorem length_runText {r : Char × ℕ} (h : IsRun r) :
    (runText r).length ≤ r.2 ∧ ((runText r).length < r.2 ↔ 3 ≤ r.2) := by
  obtain ⟨c, n⟩ := r
  have hpos : 0 < n := h.pos
  rw [runText]
  split
  · next hone =>
    change 1 ≤ n ∧ (1 < n ↔ 3 ≤ n)
    omega
  · next htwo =>
    change (Nat.toDigits 10 n).length + 1 ≤ n ∧ ((Nat.toDigits 10 n).length + 1 < n ↔ 3 ≤ n)
    rcases Nat.lt_or_ge n 3 with hlt | hge
    · obtain rfl : n = 2 := by omega
      decide
    · have hlength := length_toDigits_add_two_le hge
      omega

theorem length_flatMap_runText {rs : List (Char × ℕ)} (h : ∀ r ∈ rs, IsRun r) :
    (rs.flatMap runText).length ≤ (spelledOut rs).length ∧
      ((rs.flatMap runText).length < (spelledOut rs).length ↔ ∃ r ∈ rs, 3 ≤ r.2) := by
  induction rs with
  | nil => simp
  | cons r rs ih =>
    obtain ⟨hr, hrs⟩ := List.forall_mem_cons.mp h
    obtain ⟨hle, hlt⟩ := length_runText hr
    obtain ⟨hrestle, hrestlt⟩ := ih hrs
    rw [List.flatMap_cons, spelledOut_run_cons, List.length_append, List.length_append,
      List.length_replicate, List.exists_mem_cons_iff, ← hlt, ← hrestlt]
    omega

theorem exists_long_run_iff {text : List Char} :
    (∃ r ∈ runs text, 3 ≤ r.2) ↔ ∃ a n, 3 ≤ n ∧ HasMaximalRun text (action a).toChar n := by
  constructor
  · rintro ⟨⟨c, n⟩, hr, hn⟩
    change 3 ≤ n at hn
    have hrepeatable : isRepeatable c = true :=
      (isRun_of_mem_runs _ hr).repeatable (by change 1 < n; omega)
    obtain ⟨a, rfl⟩ := isRepeatable_iff.mp hrepeatable
    exact ⟨a, n, hn, hasMaximalRun_of_mem_runs hrepeatable hr⟩
  · rintro ⟨a, n, hn, hmaximal⟩
    have hpos : 0 < n := by omega
    have hrun : IsRun ((action a).toChar, n) := ⟨hpos, fun _ => isRepeatable_iff.mpr ⟨a, rfl⟩⟩
    exact ⟨_, hmaximal.mem_runs hrun, hn⟩

/-- A shortened text is no longer than what it keeps of the text, and it is shorter exactly if
some action stands there three times or more in a row. -/
theorem shorten_never_lengthens (text : String) :
    let restricted := text.toList.filter fun c => c ∈ characters ∨ c.isDigit = true
    (shorten text).length ≤ restricted.length ∧ (shorten text).length ≤ text.length ∧
      ((shorten text).length < restricted.length ↔
        ∃ a n, 3 ≤ n ∧ HasMaximalRun restricted (action a).toChar n) := by
  intro restricted
  have hrestricted : text.toList.filter isKept = restricted := by
    apply List.filter_congr
    intro c _
    rw [Bool.eq_iff_iff, isKept_iff_mem, decide_eq_true_eq]
  have hlength : (shorten text).length = ((runs restricted).flatMap runText).length := by
    rw [shorten, String.length_ofList, shortenList, hrestricted]
  have hkept : restricted.length ≤ text.length := List.length_filter_le _ _
  have hruns : ∀ r ∈ runs restricted, IsRun r := isRun_of_mem_runs
  obtain ⟨hle, hlt⟩ := length_flatMap_runText hruns
  rw [spelledOut_runs] at hle hlt
  rw [hlength, hlt, exists_long_run_iff]
  exact ⟨hle, hle.trans hkept, Iff.rfl⟩

end Tapecraft.RunLength
