import Mathlib
import Tapecraft.Proofs.Snippet.Passes

/-! # The passes come to rest

A pass over a table can note whether it replaced an entry. What it notes is the same as whether
some recorded length fell, and that is the same as whether their total fell, since no length grows.
So passes that are repeated until nothing is noted come to an end from every table, and where they
end a further one finds the table as it was, in every text. This is said once for any pass that
shortens, and used for relaxing and for the rounds that offer drain loops and close. The recorded
lengths stay those of the texts, counted in characters or in bytes.
-/
namespace Tapecraft

def anyByte (test : UInt8 → Bool) : Bool := foldBytes (fun found x => found || test x) false

theorem anyByte_eq_true_iff {test : UInt8 → Bool} :
    anyByte test = true ↔ ∃ x, test x = true := by
  have hfold (l : List (Fin 256)) (found : Bool) :
      l.foldl (fun found x => found || test (.ofFin x)) found = true ↔
        found = true ∨ ∃ x ∈ l, test (.ofFin x) = true := by
    induction l generalizing found with
    | nil => simp
    | cons x l ih => simp [ih, or_assoc]
  rw [anyByte, foldBytes_eq_foldl, hfold]
  constructor
  · rintro (h | ⟨x, -, hx⟩)
    · cases h
    · exact ⟨_, hx⟩
  · rintro ⟨x, hx⟩
    exact Or.inr ⟨x.toFin, List.mem_finRange _, hx⟩

theorem utf8ByteSize_repeated (count : ℕ) {c : Char} (hc : c.utf8Size = 1) :
    (repeated count c).utf8ByteSize = count := by
  rw [repeated, String.utf8ByteSize_ofList]
  induction count with
  | zero => rfl
  | succ count ih => simp [List.replicate_succ, ih, hc]

theorem DrainLoop.utf8ByteSize_text (l : DrainLoop) : l.text.utf8ByteSize = l.weight := by
  obtain ⟨direction, drain, fill⟩ := l
  have hopen : "[".utf8ByteSize = 1 := rfl
  have hmove : ">".utf8ByteSize = 1 := rfl
  have hclose : "<]>".utf8ByteSize = 3 := rfl
  have hup (count : ℕ) : (repeated count '+').utf8ByteSize = count :=
    utf8ByteSize_repeated count rfl
  have hdown (count : ℕ) : (repeated count '-').utf8ByteSize = count :=
    utf8ByteSize_repeated count rfl
  cases direction <;>
    simp only [text, weight, String.utf8ByteSize_append, hopen, hmove, hclose,
      hup, hdown] <;> omega

namespace Table

theorem ext_get {t u : Table} (h : ∀ x y, t.get x y = u.get x y) : t = u := by
  obtain ⟨rows⟩ := t
  obtain ⟨rows'⟩ := u
  congr 1
  apply ByteMap.ext
  intro x
  apply ByteMap.ext
  exact h x

/-- What a pass made of a table and what it noted: no recorded length grew, an entry whose length
did not fall is the same, and a change is noted exactly if some length fell. -/
structure Shortens (t u : Table) (noted : Bool) : Prop where
  length_le : ∀ x y, u.length x y ≤ t.length x y
  kept : ∀ x y, ¬ u.length x y < t.length x y → u.get x y = t.get x y
  noted_iff : noted = true ↔ ∃ x y, u.length x y < t.length x y

namespace Shortens
variable {t u v : Table} {a b : Bool}

theorem noted_iff_total (h : Shortens t u a) : a = true ↔ u.total < t.total := by
  rw [h.noted_iff]
  constructor
  · rintro ⟨x, y, hlt⟩
    by_contra htotal
    have heq := length_eq_of_total h.length_le htotal x y
    omega
  · intro htotal
    by_contra hnone
    have heq (x y : UInt8) : u.length x y = t.length x y :=
      le_antisymm (h.length_le x y) (Nat.le_of_not_lt fun hlt => hnone ⟨x, y, hlt⟩)
    rw [total_eq, total_eq] at htotal
    simp only [heq] at htotal
    exact lt_irrefl _ htotal

theorem eq_of_not_noted (h : Shortens t u a) (ha : a = false) : u = t := by
  apply ext_get
  intro x y
  apply h.kept
  intro hlt
  have htrue := h.noted_iff.mpr ⟨x, y, hlt⟩
  rw [ha] at htrue
  cases htrue

theorem trans (h : Shortens t u a) (h' : Shortens u v b) : Shortens t v (a || b) := by
  refine ⟨fun x y => (h'.length_le x y).trans (h.length_le x y), ?_, ?_⟩
  · intro x y hlt
    have hle := h.length_le x y
    have hle' := h'.length_le x y
    rw [h'.kept x y (by omega), h.kept x y (by omega)]
  · rw [Bool.or_eq_true]
    constructor
    · rintro (ha | hb)
      · obtain ⟨x, y, hlt⟩ := h.noted_iff.mp ha
        exact ⟨x, y, (h'.length_le x y).trans_lt hlt⟩
      · obtain ⟨x, y, hlt⟩ := h'.noted_iff.mp hb
        exact ⟨x, y, hlt.trans_le (h.length_le x y)⟩
    · rintro ⟨x, y, hlt⟩
      by_cases hu : u.length x y < t.length x y
      · exact Or.inl (h.noted_iff.mpr ⟨x, y, hu⟩)
      · exact Or.inr (h'.noted_iff.mpr ⟨x, y, by omega⟩)

end Shortens

/-- A pass is repeated until it notes no change, which takes so many passes in all. -/
inductive Repeats (pass : Table → Table) (noted : Table → Bool) : ℕ → Table → Table → Prop
  | last {t : Table} (h : noted t = false) : Repeats pass noted 1 t (pass t)
  | again {n : ℕ} {t u : Table} (h : noted t = true) (rest : Repeats pass noted n (pass t) u) :
      Repeats pass noted (n + 1) t u

namespace Repeats
variable {pass : Table → Table} {noted : Table → Bool}

/-- Each pass but the last lowers the total, so the repetition ends. It ends with what a function
gives that goes by the totals, as these fall exactly where a change is noted. -/
theorem exists_of_total (h : ∀ t, Shortens t (pass t) (noted t)) {f : Table → Table}
    (hf : ∀ t, f t = if (pass t).total < t.total then f (pass t) else pass t) (t : Table) :
    ∃ n ≤ t.total + 1, Repeats pass noted n t (f t) := by
  induction htotal : t.total using Nat.strong_induction_on generalizing t with
  | _ total ih =>
    subst htotal
    rw [hf t]
    split
    · next hlt =>
      obtain ⟨n, hn, hrest⟩ := ih _ hlt (pass t) rfl
      exact ⟨n + 1, by omega, .again ((h t).noted_iff_total.mpr hlt) hrest⟩
    · next hge =>
      have hnoted : noted t = false :=
        Bool.eq_false_iff.mpr fun hn => hge ((h t).noted_iff_total.mp hn)
      exact ⟨1, by omega, .last hnoted⟩

theorem noted_iff_one_lt {n : ℕ} {t u : Table} (h : Repeats pass noted n t u) :
    noted t = true ↔ 1 < n := by
  cases h with
  | last hnoted => simp [hnoted]
  | @again n _ _ hnoted hrest =>
    have hpos : 0 < n := by cases hrest <;> omega
    simp [hnoted, hpos]

/-- Where the repetition ended, a further pass changes nothing. -/
theorem settled (hs : ∀ t, Shortens t (pass t) (noted t)) {n : ℕ} {t u : Table}
    (h : Repeats pass noted n t u) : pass u = u ∧ noted u = false := by
  induction h with
  | @last t hnoted =>
    have heq : pass t = t := (hs t).eq_of_not_noted hnoted
    rw [heq]
    exact ⟨heq, hnoted⟩
  | again _ _ ih => exact ih

end Repeats

/-- Offers a drain loop to a row and notes whether it was taken. -/
def offerNoting (state : Row × Bool) (candidate : UInt8 × DrainLoop) : Row × Bool :=
  if candidate.2.weight < (state.1.get candidate.1).length then
    (state.1.set candidate.1 (.ofLoop candidate.2), true)
  else state

def offeredRow (t : Table) (x : UInt8) : Row × Bool :=
  (offers x).foldl offerNoting (t.rows.get x, false)

def offersNoted (t : Table) : Bool := anyByte fun x => (t.offeredRow x).2

def relaxNoted (t : Table) : Bool :=
  anyByte fun x => anyByte fun y =>
    (shortcut (.ofFn (t.length x)) (.ofFn (t.length · y)) (t.length x y)).isSome

/-- Whether a pass of the closing replaces an entry. The closing ends with the first pass that does
not, so if any does, the first does. -/
def closeNoted (t : Table) : Bool := t.relaxNoted

def round (t : Table) : Table := t.offerLoops.close

def roundNoted (t : Table) : Bool := t.offersNoted || t.offerLoops.closeNoted

theorem foldl_offerNoting_fst (candidates : List (UInt8 × DrainLoop)) (state : Row × Bool) :
    (candidates.foldl offerNoting state).1 = candidates.foldl offer state.1 := by
  have hstep (state : Row × Bool) (c : UInt8 × DrainLoop) :
      (offerNoting state c).1 = offer state.1 c := by
    unfold offerNoting offer
    split <;> rfl
  induction candidates generalizing state with
  | nil => rfl
  | cons c candidates ih => rw [List.foldl_cons, List.foldl_cons, ih, hstep]

theorem offeredRow_fst (t : Table) (x : UInt8) : (t.offeredRow x).1 = t.offerLoops.rows.get x := by
  rw [offeredRow, foldl_offerNoting_fst, offerLoops, ByteMap.get_ofFn]

theorem foldl_offerNoting_snd (candidates : List (UInt8 × DrainLoop)) (row : Row) (noted : Bool) :
    (candidates.foldl offerNoting (row, noted)).2 = true ↔
      noted = true ∨ ∃ y, ((candidates.foldl offer row).get y).length < (row.get y).length := by
  induction candidates generalizing row noted with
  | nil => simp
  | cons c candidates ih =>
    rw [List.foldl_cons, List.foldl_cons]
    by_cases hlt : c.2.weight < (row.get c.1).length
    · have htaken : offerNoting (row, noted) c = (offer row c, true) := by
        simp [offerNoting, offer, hlt]
      have hfinal := (length_foldl_offer_le candidates (offer row c) c.1).trans
        (length_offer_le_weight row c)
      rw [htaken, ih]
      simp only [true_or, true_iff]
      exact Or.inr ⟨c.1, hfinal.trans_lt hlt⟩
    · have hleft : offerNoting (row, noted) c = (row, noted) := by simp [offerNoting, hlt]
      have hrow : offer row c = row := by simp [offer, hlt]
      rw [hleft, hrow, ih]

theorem get_foldl_offer_of_not_lt (candidates : List (UInt8 × DrainLoop)) (row : Row) {y : UInt8}
    (h : ¬ ((candidates.foldl offer row).get y).length < (row.get y).length) :
    (candidates.foldl offer row).get y = row.get y := by
  induction candidates generalizing row with
  | nil => rfl
  | cons c candidates ih =>
    rw [List.foldl_cons] at h ⊢
    have hle := length_foldl_offer_le candidates (offer row c) y
    rcases offer_cases row c y with hsame | ⟨-, htaken, hlt⟩
    · rw [ih (offer row c) (by rwa [hsame]), hsame]
    · rw [htaken] at hle
      exact absurd (hle.trans_lt hlt) h

theorem shortens_offerLoops (t : Table) : Shortens t t.offerLoops t.offersNoted := by
  refine ⟨t.length_offerLoops_le, ?_, ?_⟩
  · intro x y h
    simp only [length, get_offerLoops] at h ⊢
    exact get_foldl_offer_of_not_lt _ _ h
  · simp only [offersNoted, offeredRow, anyByte_eq_true_iff, foldl_offerNoting_snd,
      Bool.false_eq_true, false_or, length, get_offerLoops]
    rfl

theorem isSome_shortcut_iff {first second : ByteMap ℕ} {direct : ℕ} :
    (shortcut first second direct).isSome = true ↔ ∃ z, first.get z + second.get z < direct := by
  cases hs : shortcut first second direct with
  | none =>
    have hle := le_of_shortcut_eq_none hs
    simpa using hle
  | some z =>
    have hlt := lt_of_shortcut_eq_some hs
    simpa using ⟨z, hlt⟩

theorem length_relax_lt_iff (t : Table) (x y : UInt8) :
    t.relax.length x y < t.length x y ↔ ∃ z, t.length x z + t.length z y < t.length x y := by
  rcases t.relax_cases x y with ⟨hsame, hall⟩ | ⟨z, hjoin, hlt⟩
  · have hlength : t.relax.length x y = t.length x y := by rw [length, hsame, length]
    rw [hlength]
    constructor
    · intro h
      omega
    · rintro ⟨z, hz⟩
      exact absurd (hall z) (by omega)
  · have hlength : t.relax.length x y = t.length x z + t.length z y := by
      rw [length, hjoin]
      rfl
    rw [hlength]
    exact ⟨fun h => ⟨z, h⟩, fun _ => hlt⟩

theorem shortens_relax (t : Table) : Shortens t t.relax t.relaxNoted := by
  refine ⟨t.length_relax_le, ?_, ?_⟩
  · intro x y h
    rcases t.relax_cases x y with ⟨hsame, -⟩ | ⟨z, -, hlt⟩
    · exact hsame
    · exact absurd ((t.length_relax_lt_iff x y).mpr ⟨z, hlt⟩) h
  · simp only [relaxNoted, anyByte_eq_true_iff, isSome_shortcut_iff, ByteMap.get_ofFn,
      length_relax_lt_iff]

theorem shortens_close (t : Table) : Shortens t t.close t.closeNoted := by
  induction t using close_induction with
  | pass t hlt ih =>
    have hnoted : t.relaxNoted = true := t.shortens_relax.noted_iff_total.mpr hlt
    -- The first pass notes a change, so it does not matter what the passes behind it note.
    have h := t.shortens_relax.trans ih
    rw [hnoted, Bool.true_or] at h
    rw [close_of_lt hlt, closeNoted, hnoted]
    exact h
  | last t hge =>
    rw [close_of_not_lt hge]
    exact t.shortens_relax

theorem shortens_round (t : Table) : Shortens t t.round t.roundNoted :=
  t.shortens_offerLoops.trans t.offerLoops.shortens_close

theorem repeats_close (t : Table) : ∃ n ≤ t.total + 1, Repeats relax relaxNoted n t t.close :=
  Repeats.exists_of_total shortens_relax close_eq t

theorem repeats_improve (t : Table) : ∃ n ≤ t.total + 1, Repeats round roundNoted n t t.improve :=
  Repeats.exists_of_total shortens_round improve_eq t

/-- The table that the rounds end with stays as it is when loops are offered and when it is closed,
and neither notes a change. -/
theorem improve_settled (t : Table) :
    t.improve.offerLoops = t.improve ∧ t.improve.offersNoted = false ∧
      t.improve.close = t.improve ∧ t.improve.closeNoted = false := by
  obtain ⟨n, -, hrepeats⟩ := t.repeats_improve
  obtain ⟨hround, hnoted⟩ := hrepeats.settled shortens_round
  obtain ⟨hoffers, hclose⟩ := Bool.or_eq_false_iff.mp hnoted
  have hsame := t.improve.shortens_offerLoops.eq_of_not_noted hoffers
  rw [round, hsame] at hround
  rw [hsame] at hclose
  exact ⟨hsame, hoffers, hround, hclose⟩

/-- The recorded lengths are those of the texts, by some count of their size. -/
def Measured (size : String → ℕ) (t : Table) : Prop := t.Every fun _ _ e => size e.text = e.length

section Measured
variable {size : String → ℕ} {t : Table}

theorem Measured.offerLoops (hloop : ∀ l : DrainLoop, size l.text = l.weight)
    (h : t.Measured size) : t.offerLoops.Measured size :=
  Every.offerLoops h fun _ _ l _ _ => hloop l

theorem Measured.relax (happend : ∀ a b, size (a ++ b) = size a + size b) (h : t.Measured size) :
    t.relax.Measured size := by
  refine Every.relax h ?_
  intro x z y a b ha hb
  rw [Entry.join, happend, ha, hb]

end Measured

/-- From any table: offering loops and relaxing keep the recorded lengths right, counted in
characters or in bytes, lengthen nothing, keep the text of what they do not shorten, and note a
change exactly if they shorten something. Therefore closing and improving, which repeat their passes
until no change is noted, end after at most as many passes as the total of the lengths and one, and
the table they leave stays as it is when loops are offered once more and it is closed again. -/
theorem passes_settle (t : Table) :
    (∀ size ∈ [String.length, String.utf8ByteSize],
      t.Measured size → t.offerLoops.Measured size ∧ t.relax.Measured size) ∧
    (∀ x, (t.offeredRow x).1 = t.offerLoops.rows.get x) ∧
    Shortens t t.offerLoops t.offersNoted ∧ Shortens t t.relax t.relaxNoted ∧
    Shortens t t.close t.closeNoted ∧
    (∃ n ≤ t.total + 1, Repeats relax relaxNoted n t t.close ∧ (t.closeNoted = true ↔ 1 < n)) ∧
    (∃ n ≤ t.total + 1, Repeats round roundNoted n t t.improve) ∧
    t.improve.offerLoops = t.improve ∧ t.improve.offersNoted = false ∧
    t.improve.close = t.improve ∧ t.improve.closeNoted = false := by
  refine ⟨?_, t.offeredRow_fst, t.shortens_offerLoops, t.shortens_relax, t.shortens_close, ?_,
    t.repeats_improve, t.improve_settled⟩
  · intro size hsize h
    have hloop (l : DrainLoop) : size l.text = l.weight := by
      rcases List.mem_pair.mp hsize with rfl | rfl
      · exact l.length_text
      · exact l.utf8ByteSize_text
    have happend (a b : String) : size (a ++ b) = size a + size b := by
      rcases List.mem_pair.mp hsize with rfl | rfl
      · exact String.length_append a b
      · exact String.utf8ByteSize_append
    exact ⟨h.offerLoops hloop, h.relax happend⟩
  · obtain ⟨n, hn, hrepeats⟩ := t.repeats_close
    exact ⟨n, hn, hrepeats, hrepeats.noted_iff_one_lt⟩

theorem passes_settle_baseline :
    baseline.Measured String.length ∧ baseline.offerLoops.Measured String.length ∧
      baseline.relax.Measured String.length ∧ baseline.improve.offerLoops = baseline.improve := by
  obtain ⟨hmeasured, -, -, -, -, -, -, hsettled, -⟩ := passes_settle baseline
  have hbaseline : baseline.Measured String.length := by
    intro x y
    rw [get_baseline]
    simp only [Entry.straight]
    split <;> simp
  obtain ⟨hoffered, hrelaxed⟩ := hmeasured String.length (by simp) hbaseline
  exact ⟨hbaseline, hoffered, hrelaxed, hsettled⟩

end Table

end Tapecraft
