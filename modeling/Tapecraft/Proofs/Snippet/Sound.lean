import Mathlib
import Tapecraft.Proofs.Snippet.Carry
import Tapecraft.Proofs.Snippet.Passes

/-! # The snippets of the table do what they are for

Every pass over a table keeps its entries sound, whatever the table: each entry carries the byte
it starts at to the byte it ends at. For the finished table the work of an entry is bounded by
its length as well: each of its characters is executed at most 255 times, and a loop takes at
least seven characters.
-/
namespace Tapecraft

namespace Table

/-- Each entry carries its first byte to its second, on any tape and without a ceiling. -/
def Sound (t : Table) : Prop := ∀ x y, Carries ⊤ x y (t.text x y)

theorem sound_iff {t : Table} : t.Sound ↔ t.Every fun x y e => Carries ⊤ x y e.text := Iff.rfl

theorem carries_loop {x y : UInt8} {l : DrainLoop} (hy : l.result? x = some y) :
    Carries (255 * l.weight : ℕ) x y l.text := by
  obtain ⟨rounds, hr, rfl⟩ := Option.map_eq_some_iff.mp hy
  refine (Carries.of_loop hr).mono (Nat.cast_le.mpr ?_)
  have hlt : rounds < 256 := List.mem_range.mp (List.mem_of_find?_eq_some hr)
  have hmul : rounds * (l.drain + l.fill + 3) ≤ 255 * (l.drain + l.fill + 3) :=
    Nat.mul_le_mul_right _ (by omega)
  rw [DrainLoop.weight]
  omega

theorem carries_join {x z y : UInt8} {a b : Entry} (ha : Carries ⊤ x z a.text)
    (hb : Carries ⊤ z y b.text) : Carries ⊤ x y (a.join b).text := by
  have h := ha.join hb
  rwa [top_add] at h

theorem sound_baseline : baseline.Sound := by
  rw [sound_iff]
  intro x y
  rw [get_baseline]
  exact (Carries.of_straight x y).mono le_top

theorem Sound.offerLoops {t : Table} (h : t.Sound) : t.offerLoops.Sound := by
  rw [sound_iff] at h ⊢
  exact h.offerLoops fun x y l _ hy => (carries_loop hy).mono le_top

theorem Sound.close {t : Table} (h : t.Sound) : t.close.Sound := by
  rw [sound_iff] at h ⊢
  exact h.close fun x z y a b => carries_join

/-- The work of an entry is bounded by its length, and so is the number of its loops. -/
def Bounded (t : Table) : Prop :=
  t.Every fun x y e => Carries (255 * e.text.length : ℕ) x y e.text ∧
    7 * loopCount e.text ≤ e.text.length

theorem Bounded.carries {t : Table} (h : t.Bounded) (x y : UInt8) :
    Carries (255 * (t.text x y).length : ℕ) x y (t.text x y) := (h x y).1

theorem Bounded.loopCount_le {t : Table} (h : t.Bounded) (x y : UInt8) :
    7 * loopCount (t.text x y) ≤ (t.text x y).length := (h x y).2

theorem loopCount_straight (x y : UInt8) : loopCount (Entry.straight x y).text = 0 := by
  simp only [Entry.straight]
  split <;> simp [loopCount, repeated, List.count_replicate]

theorem bounded_shortest : shortest.get.Bounded := by
  refine every_shortest ?_ ?_ ?_
  · intro x y
    refine ⟨(Carries.of_straight x y).mono (Nat.cast_le.mpr ?_), ?_⟩
    · have hlength : (Entry.straight x y).text.length = (Entry.straight x y).length := by
        simp only [Entry.straight]
        split <;> simp
      omega
    · rw [loopCount_straight]
      omega
  · intro x y l hl hy
    obtain ⟨hd, -, hn, -⟩ := hl
    change Carries (255 * l.text.length : ℕ) x y l.text ∧ 7 * loopCount l.text ≤ l.text.length
    rw [l.length_text, Carries.loopCount_text]
    refine ⟨carries_loop hy, ?_⟩
    rw [DrainLoop.weight]
    omega
  · rintro x z y a b ⟨ha, ha'⟩ ⟨hb, hb'⟩
    change Carries (255 * (a.text ++ b.text).length : ℕ) x y (a.text ++ b.text) ∧
      7 * loopCount (a.text ++ b.text) ≤ (a.text ++ b.text).length
    rw [String.length_append, loopCount_append]
    refine ⟨?_, by omega⟩
    rw [Nat.mul_add, Nat.cast_add]
    exact ha.join hb

theorem length_straight_le (x y : UInt8) : (Entry.straight x y).length ≤ 128 := by
  simp only [Entry.straight]
  split
  · assumption
  · dsimp only
    omega

theorem length_shortest_le (x y : UInt8) : (shortest.get.text x y).length ≤ 128 := by
  rw [recorded_shortest.length_text]
  exact (length_shortest_le_straight x y).trans (length_straight_le x y)

open Machine in
/-- The straight runs are sound, offering loops and closing keep any table sound, and so the
finished table is. On the machine an entry of it halts within 255 instructions for each of its
characters, having printed nothing, under all ceilings that cover its instructions and its cells. -/
theorem sound_through_passes :
    baseline.Sound ∧ (∀ t : Table, t.Sound → t.offerLoops.Sound) ∧
      (∀ t : Table, t.Sound → t.close.Sound) ∧ shortest.get.Sound ∧
      ∀ x y, ∃ p, Program.compile (shortest.get.text x y) = .ok p ∧
        ∀ (inputs : Array Int64) (s : State),
          s.counter = 0 → Ready x (loopCount (shortest.get.text x y)) s →
          ∃ (n : ℕ) (t : State), n ≤ 255 * (shortest.get.text x y).length ∧
            Run p.code inputs (span s.pointer (loopCount (shortest.get.text x y))) n s t ∧
            t.counter = p.code.size ∧ Arrived y (loopCount (shortest.get.text x y)) s t ∧
            ∀ (limits : Limits) (budget : ℕ),
              s.tape.touched + (loopCount (shortest.get.text x y) + 1) ≤ limits.cells →
              runFrom p.code inputs limits budget s =
                if n ≤ budget then .ok ⟨s.output, s.executed + n, t.tape.touched⟩
                else .error (.exceeded .instructions limits.instructions) := by
  refine ⟨sound_baseline, fun t => Sound.offerLoops, fun t => Sound.close, ?_, ?_⟩
  · intro x y
    exact (bounded_shortest.carries x y).mono le_top
  · intro x y
    obtain ⟨p, hp, hruns⟩ := (bounded_shortest.carries x y).runs
    refine ⟨p, hp, fun inputs s h0 hs => ?_⟩
    obtain ⟨n, t, hn, hfin, harrived⟩ := hruns inputs s h0 hs
    refine ⟨n, t, Nat.cast_le.mp hn, hfin.run, hfin.counter, harrived, ?_⟩
    intro limits budget hcells
    have houtcome : t.outcome = ⟨s.output, s.executed + n, t.tape.touched⟩ := by
      rw [State.outcome, harrived.output, hfin.executed]
    rw [hfin.result limits budget (hfin.run.touched_le_add_span.trans hcells), houtcome]

open Machine in
/-- From ten to eleven it is a single step, which is the same behind other cells. -/
theorem sound_through_passes_letter :
    (∃ (p : Program) (n : ℕ) (t : State),
      Program.compile (shortest.get.text 0 65) = .ok p ∧
      Run p.code #[] (span 0 (loopCount (shortest.get.text 0 65))) n {} t ∧ t.current = 65 ∧
      p.run #[] {} = .ok ⟨"", n, t.tape.touched⟩) ∧
    ∃ (p : Program) (t : State), shortest.get.text 10 11 = "+" ∧ Program.compile "+" = .ok p ∧
      let s : State := { pointer := 5, tape := (({} : Tape).write 4 7).write 5 10 }
      Run p.code #[] (span 5 0) 1 s t ∧ t.current = 11 ∧ t.tape.cell 4 = 7 ∧
        runFrom p.code #[] ⟨1, 3⟩ 1 s = .ok ⟨"", 1, 2⟩ ∧
        runFrom p.code #[] ⟨1, 3⟩ 0 s = .error (.exceeded .instructions 1) := by
  obtain ⟨-, -, -, -, hshortest⟩ := sound_through_passes
  constructor
  · obtain ⟨p, hp, hruns⟩ := hshortest 0 65
    have hloops := bounded_shortest.loopCount_le 0 65
    have hlength := length_shortest_le 0 65
    have hready : Ready 0 (loopCount (shortest.get.text 0 65)) {} := by
      refine ⟨Tape.cell_blank 0, fun a _ => Tape.cell_blank a, ?_⟩
      rw [Int64.toInt_maxValue, show State.pointer {} = 0 from rfl, Int64.toInt_zero]
      omega
    obtain ⟨n, t, hn, hrun, -, harrived, hresult⟩ := hruns #[] {} rfl hready
    have hsteps : n ≤ 10000000 := by omega
    have hcells : ({} : Tape).touched + (loopCount (shortest.get.text 0 65) + 1) ≤ 30000 := by
      rw [Tape.touched_blank]
      omega
    refine ⟨p, n, t, hp, hrun, harrived.current, ?_⟩
    have hended := hresult {} 10000000 hcells
    rw [if_pos hsteps, Nat.zero_add] at hended
    exact hended
  · have htext : shortest.get.text 10 11 = "+" := by
      rw [text, get_shortest_of_le_one (by decide)]
      decide
    let s : State := { pointer := 5, tape := (({} : Tape).write 4 7).write 5 10 }
    let code : Array Instruction := #[.add 1]
    have hcell (a : Int64) : s.tape.cell a = if 5 = a then 10 else if 4 = a then 7 else 0 := by
      simp [s, Tape.cell_write]
    have hready : Ready 10 (loopCount "+") s := by
      refine ⟨hcell 5, fun a ha => ?_, by decide⟩
      have hfour : (4 : Int64) ≠ a := by
        rintro rfl
        exact absurd ha (by decide)
      rw [hcell, if_neg (Int64.ne_of_lt ha), if_neg hfour]
    have hrun : runFrom code #[] ⟨1, 3⟩ 1 s = .ok ⟨"", 1, 2⟩ := by
      simp [runFrom, execute, code, s, State.store, State.goTo, State.outcome, Tape.touched_write,
        Tape.isTouched_write]
    obtain ⟨p, hp, hruns⟩ := hshortest 10 11
    rw [htext] at hp hruns
    obtain rfl : ⟨"+", code⟩ = p := Except.ok.inj hp
    obtain ⟨n, t, -, hpath, -, harrived, hresult⟩ := hruns #[] s rfl hready
    have hended (budget : ℕ) := hresult ⟨1, 3⟩ budget (by
      simp [s, loopCount, Tape.touched_write, Tape.isTouched_write])
    have hone := (hended 1).symm.trans hrun
    have hcount : 0 + n = 1 := by
      split at hone
      · exact congrArg Outcome.executed (Except.ok.inj hone)
      · cases hone
    obtain rfl : n = 1 := (Nat.zero_add n).symm.trans hcount
    have hkept : t.tape.cell 4 = 7 := (harrived.kept 4 (by decide)).trans (hcell 4)
    exact ⟨_, t, htext, hp, hpath, harrived.current, hkept, hrun, hended 0⟩

end Table

end Tapecraft
