import Mathlib
import Tapecraft.Proofs.Machine.Run

/-! # The states a run goes through

Between two instructions a run stands at a state where it looks for the next one. These states
are given as a relation that takes both ceilings into account and remembers whether the state was
reached by going on behind an instruction or by a jump. The result of a run is what the last of
them ends with, so what holds at all of them can be read off the result.
-/
namespace Tapecraft.Machine
variable {code : Array Instruction} {inputs : Array Int64} {limits : Limits}

theorem execute_cases (inputs : Array Int64) (i : Instruction) (s : State) :
    (∃ t, execute inputs i s = .next t) ∨
      (∃ target, execute inputs i s = .jump (s.look.goTo target) ∧
        (i = .jumpIfZero target ∧ s.current = 0 ∨ i = .jumpIfNonzero target ∧ s.current ≠ 0)) ∨
      (i = .halt ∧ execute inputs i s = .stop (s.goTo s.counter)) ∨
      (i = .read ∧ inputs[s.nextInput]? = none ∧ execute inputs i s = .noInput) := by
  cases i with
  | move displacement => exact Or.inl ⟨_, rfl⟩
  | add delta => exact Or.inl ⟨_, rfl⟩
  | print => exact Or.inl ⟨_, rfl⟩
  | read =>
    cases hr : inputs[s.nextInput]? with
    | none => exact Or.inr (Or.inr (Or.inr ⟨rfl, rfl, by simp [execute, hr]⟩))
    | some value =>
      simp only [execute, hr]
      exact Or.inl ⟨_, rfl⟩
  | jumpIfZero target =>
    by_cases hz : s.current = 0
    · exact Or.inr (Or.inl ⟨target, if_pos hz, Or.inl ⟨rfl, hz⟩⟩)
    · exact Or.inl ⟨_, if_neg hz⟩
  | jumpIfNonzero target =>
    by_cases hz : s.current = 0
    · exact Or.inl ⟨_, if_pos hz⟩
    · exact Or.inr (Or.inl ⟨target, if_neg hz, Or.inr ⟨rfl, hz⟩⟩)
  | halt => exact Or.inr (Or.inr (Or.inl ⟨rfl, rfl⟩))

theorem jump_spec {i : Instruction} {s t : State} (h : execute inputs i s = .jump t) :
    ∃ target, t = s.look.goTo target ∧ (i = .jumpIfZero target ∧ s.current = 0 ∨
      i = .jumpIfNonzero target ∧ s.current ≠ 0) := by
  rcases execute_cases inputs i s with ⟨u, he⟩ | ⟨target, he, hi⟩ | ⟨-, he⟩ | ⟨-, -, he⟩
  · cases he.symm.trans h
  · cases he.symm.trans h
    exact ⟨target, rfl, hi⟩
  · cases he.symm.trans h
  · cases he.symm.trans h

/-- How a run came to a state between two instructions. -/
inductive Arrival where
  | start
  | next
  | jump
deriving DecidableEq, Repr

/-- The states between two instructions that a run under its ceilings goes through. -/
inductive Visited (code : Array Instruction) (inputs : Array Int64) (limits : Limits) :
    Arrival → State → Prop
  | start : Visited code inputs limits .start {}
  | next {a : Arrival} {i : Instruction} {s t : State} (h : Visited code inputs limits a s)
      (hi : code[s.counter]? = some i) (hb : s.executed < limits.instructions)
      (ht : execute inputs i s = .next t) (hc : t.tape.touched ≤ limits.cells) :
      Visited code inputs limits .next t
  | jump {a : Arrival} {i : Instruction} {s t : State} (h : Visited code inputs limits a s)
      (hi : code[s.counter]? = some i) (hb : s.executed < limits.instructions)
      (ht : execute inputs i s = .jump t) : Visited code inputs limits .jump t

/-- What a run that has come to a state ends with there, if it ends there at all. -/
inductive Ends (code : Array Instruction) (inputs : Array Int64) (limits : Limits) (s : State) :
    Except Fault Outcome → Prop
  | leave (hi : code[s.counter]? = none) : Ends code inputs limits s (.ok s.outcome)
  | halt (hi : code[s.counter]? = some .halt) (hb : s.executed < limits.instructions) :
      Ends code inputs limits s (.ok (s.goTo s.counter).outcome)
  | spent {i : Instruction} (hi : code[s.counter]? = some i)
      (hb : limits.instructions ≤ s.executed) :
      Ends code inputs limits s (.error (.exceeded .instructions limits.instructions))
  | unfed (hi : code[s.counter]? = some .read) (hb : s.executed < limits.instructions)
      (hr : inputs[s.nextInput]? = none) :
      Ends code inputs limits s (.error (.missingInput s.counter))
  | crowded {i : Instruction} {t : State} (hi : code[s.counter]? = some i)
      (hb : s.executed < limits.instructions) (ht : execute inputs i s = .next t)
      (hc : limits.cells < t.tape.touched) :
      Ends code inputs limits s (.error (.exceeded .cells limits.cells))

theorem executed_of_next {i : Instruction} {s t : State} (h : execute inputs i s = .next t) :
    t.executed = s.executed + 1 := (onward_spec (by rw [h]; rfl)).1

theorem executed_of_jump {i : Instruction} {s t : State} (h : execute inputs i s = .jump t) :
    t.executed = s.executed + 1 := (onward_spec (by rw [h]; rfl)).1

theorem Ends.runFrom_eq {s : State} {r : Except Fault Outcome}
    (h : Ends code inputs limits s r) :
    runFrom code inputs limits (limits.instructions - s.executed) s = r := by
  cases h with
  | leave hi => exact runFrom_of_none hi _
  | halt hi hb =>
    rw [runFrom_of_lt hi hb]
    rfl
  | spent hi hb =>
    rw [Nat.sub_eq_zero_of_le hb]
    exact runFrom_zero hi
  | unfed hi hb hr =>
    rw [runFrom_of_lt hi hb]
    simp [execute, hr, proceed]
  | crowded hi hb ht hc =>
    rw [runFrom_of_lt hi hb, ht]
    exact if_pos hc

namespace Visited

theorem executed_le {a : Arrival} {s : State} (h : Visited code inputs limits a s) :
    s.executed ≤ limits.instructions := by
  cases h with
  | start => exact Nat.zero_le _
  | next _ _ hb ht _ =>
    rw [executed_of_next ht]
    exact hb
  | jump _ _ hb ht =>
    rw [executed_of_jump ht]
    exact hb

/-- The whole run is the run from any state it goes through, with what is left of the budget. -/
theorem run_eq {a : Arrival} {s : State} (h : Visited code inputs limits a s) :
    runFrom code inputs limits limits.instructions {} =
      runFrom code inputs limits (limits.instructions - s.executed) s := by
  induction h with
  | start => rfl
  | next _ hi hb ht hc ih =>
    rw [ih, runFrom_of_lt hi hb, ht, executed_of_next ht]
    exact if_neg (Nat.not_lt.mpr hc)
  | jump _ hi hb ht ih =>
    rw [ih, runFrom_of_lt hi hb, ht, executed_of_jump ht]
    rfl

theorem exists_ends {a : Arrival} {s : State} (h : Visited code inputs limits a s) :
    ∃ b t r, Visited code inputs limits b t ∧ Ends code inputs limits t r := by
  induction hn : limits.instructions - s.executed generalizing a s with
  | zero =>
    cases hi : code[s.counter]? with
    | none => exact ⟨a, s, _, h, .leave hi⟩
    | some i => exact ⟨a, s, _, h, .spent hi (by omega)⟩
  | succ n ih =>
    cases hi : code[s.counter]? with
    | none => exact ⟨a, s, _, h, .leave hi⟩
    | some i =>
      have hb : s.executed < limits.instructions := by omega
      rcases execute_cases inputs i s with ⟨t, he⟩ | ⟨target, he, -⟩ | ⟨rfl, -⟩ | ⟨rfl, hr, -⟩
      · have ht := executed_of_next he
        by_cases hc : t.tape.touched ≤ limits.cells
        · exact ih (h.next hi hb he hc) (by omega)
        · exact ⟨a, s, _, h, .crowded hi hb he (Nat.lt_of_not_le hc)⟩
      · have ht := executed_of_jump he
        exact ih (h.jump hi hb he) (by omega)
      · exact ⟨a, s, _, h, .halt hi hb⟩
      · exact ⟨a, s, _, h, .unfed hi hb hr⟩

end Visited

/-- A run has a result exactly if it ends with it at a state it goes through. -/
theorem run_eq_iff {p : Program} {r : Except Fault Outcome} :
    p.run inputs limits = r ↔
      ∃ a s, Visited p.code inputs limits a s ∧ Ends p.code inputs limits s r := by
  have hrun {a : Arrival} {s : State} {r : Except Fault Outcome}
      (hs : Visited p.code inputs limits a s) (hr : Ends p.code inputs limits s r) :
      p.run inputs limits = r := hs.run_eq.trans hr.runFrom_eq
  constructor
  · intro h
    have hstart : Visited p.code inputs limits .start {} := .start
    obtain ⟨a, s, r', hs, hr⟩ := hstart.exists_ends
    rw [hrun hs hr] at h
    exact ⟨a, s, hs, h ▸ hr⟩
  · rintro ⟨a, s, hs, hr⟩
    exact hrun hs hr

end Tapecraft.Machine
