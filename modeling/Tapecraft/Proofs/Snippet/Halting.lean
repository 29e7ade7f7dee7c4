import Mathlib
import Tapecraft.Proofs.Snippet.Drain

/-! # When a drain loop ends

The search for the number of rounds decides whether a drain loop ends at all. If it finds a number,
this is the least number of steps that bring the cell to zero, and the loop ends behind so many
rounds. If it finds none within one cycle of the byte, there is none, and the loop goes on for
ever: it comes back to its start behind each round, so that every budget of instructions is used
up.
-/
namespace Tapecraft

theorem iterate_add (x step : UInt8) (k : ℕ) :
    (· + step)^[k] x = x + UInt8.ofNat k * step := by
  induction k with
  | zero => simp
  | succ k ih =>
    rw [Function.iterate_succ_apply', ih, UInt8.ofNat_add]
    grind

theorem drainCount_le {x step : UInt8} {k : ℕ} (h : drainCount x step = some k) : k ≤ 255 := by
  have hmem := List.mem_range.mp (List.mem_of_find?_eq_some h)
  omega

/-- Giving up after one cycle loses nothing: if any number of steps brought the byte to zero, the
least of them would have been found. -/
theorem drainCount_eq_none_iff {x step : UInt8} :
    drainCount x step = none ↔ ∀ k : ℕ, x + UInt8.ofNat k * step ≠ 0 := by
  constructor
  · intro hnone k hk
    have hex : ∃ k : ℕ, x + UInt8.ofNat k * step = 0 := ⟨k, hk⟩
    have hleast : IsLeast {k : ℕ | x + UInt8.ofNat k * step = 0} (Nat.find hex) :=
      ⟨Nat.find_spec hex, fun j hj => Nat.find_min' hex hj⟩
    rw [drainCount_eq_some_iff.mpr hleast] at hnone
    cases hnone
  · intro hne
    cases h : drainCount x step with
    | none => rfl
    | some k => exact absurd (drainCount_eq_some_iff.mp h).1 (hne k)

namespace Machine
variable {code : Array Instruction} {inputs : Array Int64} {region : Set Int64}

/-- After any number of rounds, none of which empties the cell, the loop is at its start again. -/
theorem run_rounds_back {drain fill : Int8} {d n start : ℕ}
    (hc : Holds code start (roundCode drain fill d n start)) (rounds : ℕ) {s : State}
    (hs : s.counter = start) (hp : s.pointer ∈ region) (hq : s.pointer + 1 ∈ region)
    (hne : ∀ k : ℕ, s.current + UInt8.ofNat k * (UInt8.ofNat d * drain.toUInt8) ≠ 0) :
    ∃ t, Run code inputs region (rounds * (d + n + 3)) s t ∧
      Reached s t start s.pointer
        (drained s.tape.cell s.pointer (UInt8.ofNat d * drain.toUInt8)
          (UInt8.ofNat n * fill.toUInt8) rounds) := by
  induction rounds with
  | zero => exact ⟨s, by simpa using Run.refl s, hs, rfl, by simp, rfl⟩
  | succ rounds ih =>
    obtain ⟨t, ht, rt⟩ := ih
    have hpt : t.pointer ∈ region := rt.pointer ▸ hp
    have hqt : t.pointer + 1 ∈ region := rt.pointer ▸ hq
    obtain ⟨u, hu, ru⟩ : ∃ u, Run code inputs region (d + n + 3) t u ∧ _ :=
      run_round (rt.counter ▸ hc) hpt hqt
    have hcurrent : t.current + UInt8.ofNat d * drain.toUInt8 =
        s.current + UInt8.ofNat (rounds + 1) * (UInt8.ofNat d * drain.toUInt8) := by
      rw [rt.current, drained_self, UInt8.ofNat_add]
      change s.current + _ + _ = _
      grind
    rw [hcurrent, if_neg (hne _), rt.counter] at ru
    refine ⟨u, ?_, ru.counter, ru.pointer.trans rt.pointer, ?_, ru.output.trans rt.output⟩
    · rw [Nat.succ_mul]
      exact ht.trans hu
    · rw [ru.cells, rt.pointer, rt.cells, drained_drained]

end Machine

namespace DrainLoop
open Machine

theorem compile_text (l : DrainLoop) :
    Program.compile l.text = .ok ⟨l.text, (l.block.code 0).toArray⟩ :=
  Program.compile_eq_ok_iff.mpr ⟨l.block, l.commands_block, rfl⟩

theorem run_endless {code : Array Instruction} {inputs : Array Int64} {region : Set Int64}
    (l : DrainLoop) {s : State} (hc : Holds code s.counter (l.block.code s.counter))
    (hp : s.pointer ∈ region) (hq : s.pointer + 1 ∈ region)
    (hr : drainCount s.current l.drainStep = none) (n : ℕ) :
    ∃ t, Run code inputs region n s t := by
  rw [drainCount_eq_none_iff, l.drainStep_eq] at hr
  rw [l.code_block] at hc
  obtain ⟨htest, hc⟩ := hc
  obtain ⟨hround, -⟩ := holds_append.mp hc
  have hzero : s.current ≠ 0 := by simpa using hr 0
  obtain ⟨t, ht, rt⟩ : ∃ t, Run code inputs region 1 s t ∧ _ :=
    run_test htest hp (by simp only [execute, if_neg hzero]; rfl)
  have hcurrent : t.current = s.current := rt.current
  obtain ⟨u, hu, -⟩ : ∃ u, Run code inputs region (n * (l.drain + l.fill + 3)) t u ∧ _ :=
    run_rounds_back hround n rt.counter (rt.pointer ▸ hp) (rt.pointer ▸ hq)
      (by rw [hcurrent]; exact hr)
  have hcount : 1 + n * (l.drain + l.fill + 3) = n + (1 + n * (l.drain + l.fill + 2)) := by ring
  have hrun := ht.trans hu
  rw [hcount] at hrun
  obtain ⟨v, hv, -⟩ := hrun.split
  exact ⟨v, hv⟩

/-- What the text of a drain loop does from any state next to a zero cell. If the search finds a
number of rounds, this is the least that drains the cell, and the run ends behind exactly as many
instructions as these rounds take, with the neighbour filled and no other cell changed. If the
search finds none, no number of rounds drains the cell and the run never ends, so it uses up every
budget unless the cells run out before. -/
theorem ends_by_drainCount (l : DrainLoop) (inputs : Array Int64) :
    ∃ p, Program.compile l.text = .ok p ∧
      ∀ s : State, s.counter = 0 → s.tape.cell (s.pointer + 1) = 0 →
        (∀ k, drainCount s.current l.drainStep = some k →
          k ≤ 255 ∧ IsLeast {j : ℕ | (· + l.drainStep)^[j] s.current = 0} k ∧
          ∃ t, Run p.code inputs {s.pointer, s.pointer + 1} (k * (l.drain + l.fill + 3) + 2) s t ∧
            p.code[t.counter]? = none ∧ t.pointer = s.pointer + 1 ∧
            t.tape.cell = Function.update (Function.update s.tape.cell s.pointer 0)
              (s.pointer + 1) (l.filled k) ∧
            ∀ (limits : Limits) (budget : ℕ), s.tape.touched + 2 ≤ limits.cells →
              runFrom p.code inputs limits budget s =
                if k * (l.drain + l.fill + 3) + 2 ≤ budget then .ok t.outcome
                else .error (.exceeded .instructions limits.instructions)) ∧
        (drainCount s.current l.drainStep = none →
          (∀ j : ℕ, (· + l.drainStep)^[j] s.current ≠ 0) ∧
          (∀ n, ∃ t i, Run p.code inputs {s.pointer, s.pointer + 1} n s t ∧
            p.code[t.counter]? = some i) ∧
          ∀ (limits : Limits) (budget : ℕ),
            runFrom p.code inputs limits budget s =
                .error (.exceeded .instructions limits.instructions) ∨
              limits.cells < s.tape.touched + 2 ∧
                runFrom p.code inputs limits budget s =
                  .error (.exceeded .cells limits.cells)) := by
  refine ⟨_, l.compile_text, ?_⟩
  intro s hs hzero
  let code := (l.block.code 0).toArray
  let region : Set Int64 := {s.pointer, s.pointer + 1}
  have hc : Holds code s.counter (l.block.code s.counter) := by
    rw [hs]
    exact holds_self _
  have hp : s.pointer ∈ region := Or.inl rfl
  have hq : s.pointer + 1 ∈ region := Or.inr rfl
  simp only [iterate_add]
  constructor
  · intro k hk
    obtain ⟨t, ht, rt⟩ : ∃ t, Run code inputs region _ s t ∧ _ := l.run hc hp hq hk hzero
    have hend : code[t.counter]? = none := by
      rw [rt.counter, hs]
      simp [code, l.size_block]
    refine ⟨drainCount_le hk, drainCount_eq_some_iff.mp hk, t, ht, hend, rt.pointer, rt.cells, ?_⟩
    intro limits budget hlimits
    exact ht.runFrom_eq_ite hend (ht.touched_le_add_two.trans hlimits) budget
  · intro hnone
    have hrun (n : ℕ) : ∃ t, Run code inputs region n s t := l.run_endless hc hp hq hnone n
    refine ⟨drainCount_eq_none_iff.mp hnone, exists_next_of_endless hrun, ?_⟩
    intro limits budget
    obtain ⟨t, ht⟩ := hrun (budget + 1)
    rcases ht.runFrom_exceeded (Nat.lt_succ_self budget) limits with hspent | ⟨hcells, hcrowded⟩
    · exact Or.inl hspent
    · exact Or.inr ⟨hcells.trans_le ht.touched_le_add_two, hcrowded⟩

/-- Ten is drained by twos in five rounds, three never. -/
theorem ends_by_drainCount_twos :
    (∃ p t, Program.compile "[-->+++<]>" = .ok p ∧
      Run p.code #[] {0, 1} 42 { tape := ({} : Tape).write 0 10 } t ∧
      p.code[t.counter]? = none ∧ t.tape.cell 1 = 15) ∧
    ∃ p, Program.compile "[++>-<]>" = .ok p ∧ ∀ budget,
      runFrom p.code #[] ⟨budget, 3⟩ budget { tape := ({} : Tape).write 0 3 } =
        .error (.exceeded .instructions budget) := by
  have hcell (x : UInt8) (a : Int64) :
      (({} : Tape).write 0 x).cell a = if 0 = a then x else 0 := by
    rw [Tape.cell_write, Tape.cell_blank]
  constructor
  · obtain ⟨p, hp, hruns⟩ := ends_by_drainCount ⟨.down, 2, 3⟩ #[]
    obtain ⟨hend, -⟩ := hruns { tape := ({} : Tape).write 0 10 } rfl (hcell 10 1)
    obtain ⟨-, -, t, ht, hleft, -, hcells, -⟩ := hend 5 (by
      rw [State.current, hcell]
      decide +kernel)
    exact ⟨p, t, hp, ht, hleft, congrFun hcells 1⟩
  · obtain ⟨p, hp, hruns⟩ := ends_by_drainCount ⟨.up, 2, 1⟩ #[]
    obtain ⟨-, hendless⟩ := hruns { tape := ({} : Tape).write 0 3 } rfl (hcell 3 1)
    obtain ⟨-, -, hspent⟩ := hendless (by
      rw [State.current, hcell]
      decide +kernel)
    refine ⟨p, hp, fun budget => ?_⟩
    rcases hspent ⟨budget, 3⟩ budget with h | ⟨hcells, -⟩
    · exact h
    · simp [Tape.touched_write] at hcells

end DrainLoop

end Tapecraft
