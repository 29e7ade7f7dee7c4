import Mathlib
import Tapecraft.Snippet.Table

/-! # The passes over the table

What one pass can do to an entry is said once: offering loops keeps it or puts a drain loop in
its place, relaxing keeps it or joins two entries, and both replace only by something shorter.
From this follow, for the repeated passes, that a property of entries which drain loops have and
joining keeps is never lost, that no length grows, and that a finished table admits no shorter
drain loop and no shorter detour.
-/
namespace Tapecraft

theorem foldBytes_eq_foldl {β : Type} (f : β → UInt8 → β) (start : β) :
    foldBytes f start = (List.finRange 256).foldl (fun b x => f b (.ofFin x)) start :=
  Fin.foldl_eq_foldl_finRange _ _

theorem ByteMap.sum_eq {α : Type} (m : ByteMap α) (measure : α → ℕ) :
    m.sum measure = ∑ x : Fin 256, measure (m.get (.ofFin x)) := by
  have hfold (l : List (Fin 256)) (start : ℕ) :
      l.foldl (fun total x => total + measure (m.get (.ofFin x))) start =
        start + (l.map fun x => measure (m.get (.ofFin x))).sum := by
    induction l generalizing start with
    | nil => simp
    | cons x l ih => simp [ih, Nat.add_assoc]
  rw [ByteMap.sum, foldBytes_eq_foldl, hfold, Nat.zero_add, ← Fin.sum_univ_def]

namespace Table

/-- Every entry has a property, which may depend on the two bytes. -/
def Every (P : UInt8 → UInt8 → Entry → Prop) (t : Table) : Prop := ∀ x y, P x y (t.get x y)

theorem total_eq (t : Table) :
    t.total = ∑ x : Fin 256, ∑ y : Fin 256, t.length (.ofFin x) (.ofFin y) := by
  simp only [total, ByteMap.sum_eq, length, get]

/-- Where no length grew and the total did not fall, no length changed. -/
theorem length_eq_of_total {t u : Table} (hle : ∀ x y, u.length x y ≤ t.length x y)
    (h : ¬ u.total < t.total) (x y : UInt8) : u.length x y = t.length x y := by
  by_contra hne
  refine h ?_
  rw [total_eq, total_eq]
  have hrow (x : Fin 256) : ∑ y : Fin 256, u.length (.ofFin x) (.ofFin y) ≤
      ∑ y : Fin 256, t.length (.ofFin x) (.ofFin y) :=
    Finset.sum_le_sum fun y _ => hle _ _
  refine Finset.sum_lt_sum (fun x _ => hrow x) ⟨x.toFin, Finset.mem_univ _, ?_⟩
  refine Finset.sum_lt_sum (fun y _ => hle _ _) ⟨y.toFin, Finset.mem_univ _, ?_⟩
  exact lt_of_le_of_ne (hle _ _) hne

/-- The offers for a byte are all drain loops with allowed sizes that end when started on it. -/
theorem mem_offers {x y : UInt8} {l : DrainLoop} :
    (y, l) ∈ offers x ↔ (Step.loop l).Allowed ∧ l.result? x = some y := by
  have hsizes (k : ℕ) : k ∈ stepSizes ↔ 1 ≤ k ∧ k ≤ Step.maxSize := by
    rw [stepSizes, List.mem_range'_1]
    omega
  obtain ⟨direction, drain, fill⟩ := l
  simp only [offers, List.mem_flatMap, List.mem_append, Option.mem_toList,
    Option.map_eq_some_iff, Prod.mk.injEq, hsizes, Step.Allowed, DrainLoop.result?]
  constructor
  · rintro ⟨d, hd, n, hn, ⟨k, hk, hy, h⟩ | ⟨k, hk, hy, h⟩⟩ <;> cases h <;>
      exact ⟨⟨hd.1, hd.2, hn.1, hn.2⟩, k, hk, hy⟩
  · rintro ⟨⟨hd, hd', hn, hn'⟩, k, hk, hy⟩
    refine ⟨drain, ⟨hd, hd'⟩, fill, ⟨hn, hn'⟩, ?_⟩
    cases direction with
    | down => exact Or.inl ⟨k, hk, hy, rfl⟩
    | up => exact Or.inr ⟨k, hk, hy, rfl⟩

/-- An offer replaces at most the entry it leads to, and only by something shorter. -/
theorem offer_cases (row : Row) (candidate : UInt8 × DrainLoop) (y : UInt8) :
    (offer row candidate).get y = row.get y ∨
      y = candidate.1 ∧ (offer row candidate).get y = .ofLoop candidate.2 ∧
        candidate.2.weight < (row.get y).length := by
  unfold offer
  split
  · next h =>
    rw [ByteMap.get_set]
    split
    · next hy =>
      subst hy
      exact Or.inr ⟨rfl, rfl, h⟩
    · exact Or.inl rfl
  · exact Or.inl rfl

theorem length_offer_le (row : Row) (candidate : UInt8 × DrainLoop) (y : UInt8) :
    ((offer row candidate).get y).length ≤ (row.get y).length := by
  rcases offer_cases row candidate y with h | ⟨-, h, hlt⟩
  · rw [h]
  · rw [h]
    exact hlt.le

theorem length_offer_le_weight (row : Row) (candidate : UInt8 × DrainLoop) :
    ((offer row candidate).get candidate.1).length ≤ candidate.2.weight := by
  unfold offer
  split
  · rw [ByteMap.get_set, if_pos rfl]
    exact le_rfl
  · next h => exact Nat.le_of_not_lt h

theorem length_foldl_offer_le (candidates : List (UInt8 × DrainLoop)) (row : Row) (y : UInt8) :
    ((candidates.foldl offer row).get y).length ≤ (row.get y).length := by
  induction candidates generalizing row with
  | nil => exact le_rfl
  | cons c candidates ih => exact (ih (offer row c)).trans (length_offer_le row c y)

theorem length_foldl_offer_le_weight {candidates : List (UInt8 × DrainLoop)} (row : Row)
    {c : UInt8 × DrainLoop} (hc : c ∈ candidates) :
    ((candidates.foldl offer row).get c.1).length ≤ c.2.weight := by
  induction candidates generalizing row with
  | nil => simp at hc
  | cons c' candidates ih =>
    rcases List.mem_cons.mp hc with rfl | hc
    · have hrest := length_foldl_offer_le candidates (offer row c) c.1
      exact hrest.trans (length_offer_le_weight row c)
    · exact ih (offer row c') hc

theorem foldl_offer_every {P : UInt8 → Entry → Prop} {candidates : List (UInt8 × DrainLoop)}
    {row : Row} (hrow : ∀ y, P y (row.get y)) (hc : ∀ c ∈ candidates, P c.1 (.ofLoop c.2))
    (y : UInt8) : P y ((candidates.foldl offer row).get y) := by
  induction candidates generalizing row with
  | nil => exact hrow y
  | cons c candidates ih =>
    refine ih ?_ fun c' hc' => hc c' (List.mem_cons_of_mem _ hc')
    intro y'
    rcases offer_cases row c y' with h | ⟨rfl, h, -⟩
    · rw [h]
      exact hrow y'
    · rw [h]
      exact hc c List.mem_cons_self

theorem get_offerLoops (t : Table) (x y : UInt8) :
    t.offerLoops.get x y = ((offers x).foldl offer (t.rows.get x)).get y := by
  simp [get, offerLoops]

theorem length_offerLoops_le (t : Table) (x y : UInt8) :
    t.offerLoops.length x y ≤ t.length x y := by
  rw [length, get_offerLoops]
  exact length_foldl_offer_le _ _ _

theorem length_offerLoops_le_weight (t : Table) {x y : UInt8} {l : DrainLoop}
    (hl : (Step.loop l).Allowed) (hy : l.result? x = some y) :
    t.offerLoops.length x y ≤ l.weight := by
  rw [length, get_offerLoops]
  exact length_foldl_offer_le_weight _ (mem_offers.mpr ⟨hl, hy⟩)

theorem Every.offerLoops {P : UInt8 → UInt8 → Entry → Prop} {t : Table} (h : t.Every P)
    (hloop : ∀ x y l, (Step.loop l).Allowed → l.result? x = some y → P x y (.ofLoop l)) :
    t.offerLoops.Every P := by
  intro x y
  rw [get_offerLoops]
  refine foldl_offer_every (h x) ?_ y
  rintro ⟨y', l⟩ hc
  obtain ⟨hl, hy⟩ := mem_offers.mp hc
  exact hloop x y' l hl hy

def consider (first second : ByteMap ℕ) (best : ℕ × Option UInt8) (z : UInt8) :
    ℕ × Option UInt8 :=
  if first.get z + second.get z < best.1 then (first.get z + second.get z, some z) else best

def Best (first second : ByteMap ℕ) (direct : ℕ) : ℕ × Option UInt8 → Prop
  | (length, none) => length = direct
  | (length, some z) => length = first.get z + second.get z ∧ length < direct

theorem best_consider {first second : ByteMap ℕ} {direct : ℕ} {best : ℕ × Option UInt8}
    (h : Best first second direct best) (z : UInt8) :
    Best first second direct (consider first second best z) ∧
      (consider first second best z).1 ≤ best.1 ∧
      (consider first second best z).1 ≤ first.get z + second.get z := by
  unfold consider
  split
  · next hlt =>
    refine ⟨⟨rfl, ?_⟩, hlt.le, le_rfl⟩
    obtain ⟨length, _ | z'⟩ := best
    · exact lt_of_lt_of_eq hlt h
    · exact hlt.trans h.2
  · next hge => exact ⟨h, le_rfl, Nat.le_of_not_lt hge⟩

theorem best_foldl {first second : ByteMap ℕ} {direct : ℕ} (bytes : List UInt8)
    {best : ℕ × Option UInt8} (h : Best first second direct best) :
    Best first second direct (bytes.foldl (consider first second) best) ∧
      (bytes.foldl (consider first second) best).1 ≤ best.1 ∧
      ∀ z ∈ bytes,
        (bytes.foldl (consider first second) best).1 ≤ first.get z + second.get z := by
  induction bytes generalizing best with
  | nil => exact ⟨h, le_rfl, by simp⟩
  | cons z bytes ih =>
    obtain ⟨hb, hle, hz⟩ := best_consider h z
    obtain ⟨hb', hle', hall⟩ := ih hb
    refine ⟨hb', hle'.trans hle, fun z' hz' => ?_⟩
    rcases List.mem_cons.mp hz' with rfl | hz'
    · exact hle'.trans hz
    · exact hall z' hz'

theorem shortcut_eq_foldl (first second : ByteMap ℕ) (direct : ℕ) :
    ∃ bytes : List UInt8, (∀ z, z ∈ bytes) ∧
      shortcut first second direct = (bytes.foldl (consider first second) (direct, none)).2 := by
  refine ⟨(List.finRange 256).map UInt8.ofFin, ?_, ?_⟩
  · intro z
    exact List.mem_map.mpr ⟨z.toFin, List.mem_finRange _, rfl⟩
  · change (foldBytes (consider first second) (direct, none)).2 = _
    rw [foldBytes_eq_foldl, List.foldl_map]

theorem le_of_shortcut_eq_none {first second : ByteMap ℕ} {direct : ℕ}
    (h : shortcut first second direct = none) (z : UInt8) :
    direct ≤ first.get z + second.get z := by
  obtain ⟨bytes, hbytes, heq⟩ := shortcut_eq_foldl first second direct
  rw [heq] at h
  have hstart : Best first second direct (direct, none) := rfl
  obtain ⟨hb, -, hall⟩ := best_foldl bytes hstart
  have hz := hall z (hbytes z)
  generalize bytes.foldl (consider first second) (direct, none) = best at h hb hz
  obtain ⟨length, _ | z'⟩ := best
  · exact le_of_eq_of_le hb.symm hz
  · cases h

theorem lt_of_shortcut_eq_some {first second : ByteMap ℕ} {direct : ℕ} {z : UInt8}
    (h : shortcut first second direct = some z) : first.get z + second.get z < direct := by
  obtain ⟨bytes, -, heq⟩ := shortcut_eq_foldl first second direct
  rw [heq] at h
  have hstart : Best first second direct (direct, none) := rfl
  obtain ⟨hb, -, -⟩ := best_foldl bytes hstart
  generalize bytes.foldl (consider first second) (direct, none) = best at h hb
  obtain ⟨length, _ | z'⟩ := best
  · cases h
  · cases h
    exact lt_of_eq_of_lt hb.1.symm hb.2

/-- Relaxing keeps an entry, when there is no shorter detour, or joins two entries that make a
shorter one. -/
theorem relax_cases (t : Table) (x y : UInt8) :
    t.relax.get x y = t.get x y ∧ (∀ z, t.length x y ≤ t.length x z + t.length z y) ∨
      ∃ z, t.relax.get x y = (t.get x z).join (t.get z y) ∧
        t.length x z + t.length z y < t.length x y := by
  simp only [relax, get_ofFn, ByteMap.get_ofFn]
  cases hs : shortcut (.ofFn (t.length x)) (.ofFn (t.length · y)) (t.length x y) with
  | none =>
    refine Or.inl ⟨rfl, fun z => ?_⟩
    simpa using le_of_shortcut_eq_none hs z
  | some z =>
    refine Or.inr ⟨z, rfl, ?_⟩
    simpa using lt_of_shortcut_eq_some hs

theorem length_relax_le (t : Table) (x y : UInt8) : t.relax.length x y ≤ t.length x y := by
  rcases t.relax_cases x y with ⟨h, -⟩ | ⟨z, h, hlt⟩
  · rw [length, h, length]
  · rw [length, h]
    exact hlt.le

theorem Every.relax {P : UInt8 → UInt8 → Entry → Prop} {t : Table} (h : t.Every P)
    (hjoin : ∀ x z y a b, P x z a → P z y b → P x y (a.join b)) : t.relax.Every P := by
  intro x y
  rcases t.relax_cases x y with ⟨he, -⟩ | ⟨z, he, -⟩
  · rw [he]
    exact h x y
  · rw [he]
    exact hjoin x z y _ _ (h x z) (h z y)

def Triangle (t : Table) : Prop := ∀ x y z, t.length x y ≤ t.length x z + t.length z y

/-- A pass that did not lower the total found no detour anywhere. -/
theorem triangle_relax {t : Table} (h : ¬ t.relax.total < t.total) : t.relax.Triangle := by
  have heq := length_eq_of_total t.length_relax_le h
  intro x y z
  rw [heq, heq, heq]
  rcases t.relax_cases x y with ⟨-, hall⟩ | ⟨z', he, hlt⟩
  · exact hall z
  · -- A joined entry would be shorter than the one it replaced.
    have hlength : t.relax.length x y = t.length x z' + t.length z' y := by
      rw [length, he]
      rfl
    have hxy := heq x y
    omega

theorem close_eq (t : Table) :
    t.close = if t.relax.total < t.total then t.relax.close else t.relax := by
  conv_lhs => unfold close

theorem close_of_lt {t : Table} (h : t.relax.total < t.total) : t.close = t.relax.close :=
  t.close_eq.trans (if_pos h)

theorem close_of_not_lt {t : Table} (h : ¬ t.relax.total < t.total) : t.close = t.relax :=
  t.close_eq.trans (if_neg h)

/-- The passes of a closing one by one: each but the last lowers the total. -/
theorem close_induction {motive : Table → Prop}
    (pass : ∀ t : Table, t.relax.total < t.total → motive t.relax → motive t)
    (last : ∀ t : Table, ¬ t.relax.total < t.total → motive t) (t : Table) : motive t := by
  induction hn : t.total using Nat.strong_induction_on generalizing t with
  | _ n ih =>
    by_cases h : t.relax.total < t.total
    · exact pass t h (ih t.relax.total (hn ▸ h) t.relax rfl)
    · exact last t h

theorem length_close_le (t : Table) (x y : UInt8) : t.close.length x y ≤ t.length x y := by
  induction t using close_induction with
  | pass t h ih =>
    rw [close_of_lt h]
    exact ih.trans (t.length_relax_le x y)
  | last t h =>
    rw [close_of_not_lt h]
    exact t.length_relax_le x y

theorem triangle_close (t : Table) : t.close.Triangle := by
  induction t using close_induction with
  | pass t h ih =>
    rw [close_of_lt h]
    exact ih
  | last t h =>
    rw [close_of_not_lt h]
    exact triangle_relax h

theorem Every.close {P : UInt8 → UInt8 → Entry → Prop} {t : Table} (h : t.Every P)
    (hjoin : ∀ x z y a b, P x z a → P z y b → P x y (a.join b)) : t.close.Every P := by
  induction t using close_induction with
  | pass t hlt ih =>
    rw [close_of_lt hlt]
    exact ih (h.relax hjoin)
  | last t hge =>
    rw [close_of_not_lt hge]
    exact h.relax hjoin

theorem improve_eq (t : Table) :
    t.improve = if t.offerLoops.close.total < t.total then t.offerLoops.close.improve
      else t.offerLoops.close := by
  conv_lhs => unfold improve

theorem improve_of_lt {t : Table} (h : t.offerLoops.close.total < t.total) :
    t.improve = t.offerLoops.close.improve := t.improve_eq.trans (if_pos h)

theorem improve_of_not_lt {t : Table} (h : ¬ t.offerLoops.close.total < t.total) :
    t.improve = t.offerLoops.close := t.improve_eq.trans (if_neg h)

theorem improve_induction {motive : Table → Prop}
    (round : ∀ t : Table, t.offerLoops.close.total < t.total → motive t.offerLoops.close →
      motive t)
    (last : ∀ t : Table, ¬ t.offerLoops.close.total < t.total → motive t) (t : Table) :
    motive t := by
  induction hn : t.total using Nat.strong_induction_on generalizing t with
  | _ n ih =>
    by_cases h : t.offerLoops.close.total < t.total
    · exact round t h (ih t.offerLoops.close.total (hn ▸ h) t.offerLoops.close rfl)
    · exact last t h

/-- The last round of the improvement starts from a table with no longer entries than the first. -/
theorem improve_eq_round (t : Table) :
    ∃ u : Table, t.improve = u.offerLoops.close ∧ ∀ x y, u.length x y ≤ t.length x y := by
  induction t using improve_induction with
  | round t h ih =>
    obtain ⟨u, hu, hle⟩ := ih
    refine ⟨u, (improve_of_lt h).trans hu, fun x y => (hle x y).trans ?_⟩
    exact (length_close_le _ x y).trans (t.length_offerLoops_le x y)
  | last t h => exact ⟨t, improve_of_not_lt h, fun x y => le_rfl⟩

theorem Every.improve {P : UInt8 → UInt8 → Entry → Prop} {t : Table} (h : t.Every P)
    (hloop : ∀ x y l, (Step.loop l).Allowed → l.result? x = some y → P x y (.ofLoop l))
    (hjoin : ∀ x z y a b, P x z a → P z y b → P x y (a.join b)) : t.improve.Every P := by
  induction t using improve_induction with
  | round t hlt ih =>
    rw [improve_of_lt hlt]
    exact ih ((h.offerLoops hloop).close hjoin)
  | last t hge =>
    rw [improve_of_not_lt hge]
    exact (h.offerLoops hloop).close hjoin

theorem get_baseline (x y : UInt8) : baseline.get x y = .straight x y := by simp [baseline]

/-- A property of straight runs and of drain loops that joining keeps is one of all entries of
the finished table. -/
theorem every_shortest {P : UInt8 → UInt8 → Entry → Prop} (hstraight : ∀ x y, P x y (.straight x y))
    (hloop : ∀ x y l, (Step.loop l).Allowed → l.result? x = some y → P x y (.ofLoop l))
    (hjoin : ∀ x z y a b, P x z a → P z y b → P x y (a.join b)) : shortest.get.Every P := by
  rw [get_shortest]
  refine Every.improve ?_ hloop hjoin
  intro x y
  rw [get_baseline]
  exact hstraight x y

theorem length_shortest_le_straight (x y : UInt8) :
    shortest.get.length x y ≤ (Entry.straight x y).length := by
  rw [get_shortest, ← get_baseline]
  obtain ⟨u, hu, hle⟩ := improve_eq_round baseline
  rw [hu]
  exact (length_close_le _ x y).trans ((u.length_offerLoops_le x y).trans (hle x y))

theorem length_shortest_le_weight {x y : UInt8} {l : DrainLoop} (hl : (Step.loop l).Allowed)
    (hy : l.result? x = some y) : shortest.get.length x y ≤ l.weight := by
  rw [get_shortest]
  obtain ⟨u, hu, -⟩ := improve_eq_round baseline
  rw [hu]
  exact (length_close_le _ x y).trans (u.length_offerLoops_le_weight hl hy)

theorem triangle_shortest : shortest.get.Triangle := by
  rw [get_shortest]
  obtain ⟨u, hu, -⟩ := improve_eq_round baseline
  rw [hu]
  exact triangle_close _

def Recorded (t : Table) : Prop := t.Every fun _ _ e => e.text.length = e.length

theorem Recorded.length_text {t : Table} (h : t.Recorded) (x y : UInt8) :
    (t.text x y).length = t.length x y := h x y

theorem recorded_shortest : shortest.get.Recorded := by
  refine every_shortest ?_ ?_ ?_
  · intro x y
    simp only [Entry.straight]
    split <;> simp
  · intro x y l _ _
    exact l.length_text
  · intro x z y a b ha hb
    simp [Entry.join, ha, hb]

theorem eq_of_straight_empty {x y : UInt8} (h : (Entry.straight x y).length = 0) : x = y := by
  simp only [Entry.straight] at h
  have hlt := (y - x).toNat_lt
  split at h
  · have hzero : y - x = 0 := UInt8.toNat_inj.mp h
    grind
  · dsimp only at h
    omega

theorem straight_self (x : UInt8) : Entry.straight x x = ⟨"", 0⟩ := by
  simp [Entry.straight, repeated]

/-- Nothing is shorter than a straight run of a single command but no text at all. -/
theorem get_shortest_of_le_one {x y : UInt8} (h : (Entry.straight x y).length ≤ 1) :
    shortest.get.get x y = .straight x y := by
  have hkept : shortest.get.Every fun x y e => e.length ≤ 1 → e = .straight x y := by
    refine every_shortest (fun x y _ => rfl) ?_ ?_
    · intro x y l hl _ hle
      obtain ⟨hd, -, hn, -⟩ := hl
      have hweight : l.weight ≤ 1 := hle
      rw [DrainLoop.weight] at hweight
      omega
    · intro x z y a b ha hb hle
      have hsum : a.length + b.length ≤ 1 := hle
      have ha := ha (by omega)
      have hb := hb (by omega)
      rcases Nat.eq_zero_or_pos a.length with hzero | hpos
      · rw [ha] at hzero
        obtain rfl := eq_of_straight_empty hzero
        rw [ha, hb, straight_self]
        simp [Entry.join]
      · have hzero : b.length = 0 := by omega
        rw [hb] at hzero
        obtain rfl := eq_of_straight_empty hzero
        rw [ha, hb, straight_self]
        simp [Entry.join]
  have hle := (length_shortest_le_straight x y).trans h
  rw [length] at hle
  exact hkept x y hle

end Table

end Tapecraft
