import Mathlib
import Tapecraft.Proofs.Machine.Ceilings
import Tapecraft.Proofs.Machine.InputCycle

/-! # Runs that find no input

Only a read looks at the inputs, and a run without inputs goes on behind no read. Up to the first
read it is therefore a run with any inputs, and one that comes to no read has the same result with
all of them. Where a read finds no input, the count of the instructions before it tells under which
budgets the read is reached at all.
-/
namespace Tapecraft

namespace Machine
variable {code : Array Instruction} {inputs : Array Int64} {limits : Limits}

theorem execute_eq_of_ne_read {i : Instruction} (h : i ≠ .read) (u v : Array Int64) (s : State) :
    execute u i s = execute v i s := by
  cases i with
  | read => exact absurd rfl h
  | _ => rfl

/-- What an instruction does without inputs it does with any. -/
theorem execute_eq_unfed {i : Instruction} {s : State} (h : execute #[] i s ≠ .noInput)
    (inputs : Array Int64) : execute inputs i s = execute #[] i s := by
  apply execute_eq_of_ne_read
  rintro rfl
  apply h
  simp [execute]

namespace Visited

theorem of_unfed {a : Arrival} {s : State} (h : Visited code #[] limits a s)
    (inputs : Array Int64) : Visited code inputs limits a s := by
  induction h with
  | start => exact .start
  | next _ hi hb ht hc ih =>
    have hsame := execute_eq_unfed (by rw [ht]; simp) inputs
    exact ih.next hi hb (hsame.trans ht) hc
  | jump _ hi hb ht ih =>
    have hsame := execute_eq_unfed (by rw [ht]; simp) inputs
    exact ih.jump hi hb (hsame.trans ht)

theorem nextInput_lt {a : Arrival} {s : State} (h : Visited code inputs limits a s)
    (hpos : 0 < inputs.size) : s.nextInput < inputs.size := by
  obtain ⟨trail, -, htrail⟩ := h.exists_trail
  rw [htrail.nextInput_eq]
  exact Nat.mod_lt _ hpos

end Visited

theorem ends_missingInput_iff {s : State} {position : ℕ} :
    Ends code inputs limits s (.error (.missingInput position)) ↔
      code[s.counter]? = some .read ∧ s.executed < limits.instructions ∧
        inputs[s.nextInput]? = none ∧ s.counter = position := by
  constructor
  · intro h
    cases h with
    | unfed hi hb hr => exact ⟨hi, hb, hr, rfl⟩
  · rintro ⟨hi, hb, hr, rfl⟩
    exact .unfed hi hb hr

theorem Ends.of_unfed {s : State} {r : Except Fault Outcome} (h : Ends code #[] limits s r)
    (hr : ∀ position, r ≠ .error (.missingInput position)) (inputs : Array Int64) :
    Ends code inputs limits s r := by
  cases h with
  | leave hi => exact .leave hi
  | halt hi hb => exact .halt hi hb
  | spent hi hb => exact .spent hi hb
  | unfed hi hb hin => exact absurd rfl (hr s.counter)
  | crowded hi hb ht hc =>
    have hsame := execute_eq_unfed (by rw [ht]; simp) inputs
    exact .crowded hi hb (hsame.trans ht) hc

end Machine

namespace Program
open Machine
variable {p : Program} {inputs : Array Int64} {limits : Limits}

theorem run_ne_missingInput (h : 0 < inputs.size) (position : ℕ) :
    p.run inputs limits ≠ .error (.missingInput position) := by
  intro hrun
  obtain ⟨a, s, hs, hend⟩ := run_eq_iff.mp hrun
  obtain ⟨-, -, hnone, -⟩ := ends_missingInput_iff.mp hend
  have hle := Array.getElem?_eq_none_iff.mp hnone
  have hlt := hs.nextInput_lt h
  omega

theorem run_eq_unfed (h : ∀ position, p.run #[] limits ≠ .error (.missingInput position))
    (inputs : Array Int64) : p.run inputs limits = p.run #[] limits := by
  obtain ⟨a, s, hs, hend⟩ := run_eq_iff.mp (Eq.refl (p.run #[] limits))
  exact run_eq_iff.mpr ⟨a, s, hs.of_unfed inputs, hend.of_unfed h inputs⟩

theorem run_spent_of_le {n n' m : ℕ}
    (h : p.run inputs ⟨n, m⟩ = .error (.exceeded .instructions n)) (hn : n' ≤ n) :
    p.run inputs ⟨n', m⟩ = .error (.exceeded .instructions n') := by
  rcases run_spent_or_eq hn with hspent | hsame
  · exact hspent
  · have hlimit := hsame.symm.trans h
    obtain rfl : n = n' := limit_of_spent hlimit
    exact hlimit

/-- With inputs there is always one to read. A run without inputs that does not come to a read is
the run with any inputs. If it comes to one, then after a count of instructions that decides the
result under all budgets: up to that count every budget is used up, whatever the inputs, and with
a higher one the read finds no input. -/
theorem missingInput_exact (p : Program) (n m : ℕ) :
    (∀ inputs : Array Int64, 0 < inputs.size →
      ∀ position, p.run inputs ⟨n, m⟩ ≠ .error (.missingInput position)) ∧
    ((∀ position, p.run #[] ⟨n, m⟩ ≠ .error (.missingInput position)) →
      ∀ inputs : Array Int64, p.run inputs ⟨n, m⟩ = p.run #[] ⟨n, m⟩) ∧
    ∀ position, p.run #[] ⟨n, m⟩ = .error (.missingInput position) →
      p.code[position]? = some .read ∧ ∃ c < n,
        (∃ a s, Visited p.code #[] ⟨n, m⟩ a s ∧ s.counter = position ∧ s.executed = c) ∧
        (∀ n' > c, p.run #[] ⟨n', m⟩ = .error (.missingInput position)) ∧
        ∀ n' ≤ c, ∀ inputs : Array Int64,
          p.run inputs ⟨n', m⟩ = .error (.exceeded .instructions n') := by
  refine ⟨?_, ?_, ?_⟩
  · intro inputs hpos position
    exact run_ne_missingInput hpos position
  · intro h inputs
    exact run_eq_unfed h inputs
  · intro position h
    obtain ⟨a, s, hs, hend⟩ := run_eq_iff.mp h
    obtain ⟨hread, hlt, hnone, rfl⟩ := ends_missingInput_iff.mp hend
    refine ⟨hread, s.executed, hlt, ⟨a, s, hs, rfl, rfl⟩, ?_, ?_⟩
    · intro n' hn'
      have hs' : Visited p.code #[] ⟨n', m⟩ a s := hs.raise (Nat.le_of_lt hn') le_rfl
      exact run_eq_iff.mpr ⟨a, s, hs', .unfed hread hn' hnone⟩
    · intro n' hn' inputs
      -- The budget that lets the run come just to the read is used up there with all inputs.
      have hs' : Visited p.code inputs ⟨s.executed, m⟩ a s :=
        (hs.of_unfed inputs).raise le_rfl le_rfl
      have hspent : p.run inputs ⟨s.executed, m⟩ = .error (.exceeded .instructions s.executed) :=
        run_eq_iff.mpr ⟨a, s, hs', .spent hread le_rfl⟩
      exact run_spent_of_le hspent hn'

theorem missingInput_exact_second_cell :
    let p : Program := ⟨"+>,", #[.add 1, .move 1, .read]⟩
    compile "+>," = .ok p ∧ p.run #[] ⟨9, 2⟩ = .error (.missingInput 2) ∧
      p.code[2]? = some .read ∧ (∃ c < 9, ∀ n' > c, p.run #[] ⟨n', 2⟩ = .error (.missingInput 2)) ∧
      p.run #[65] ⟨9, 2⟩ ≠ .error (.missingInput 2) ∧
      ∀ inputs, p.run inputs ⟨2, 2⟩ = .error (.exceeded .instructions 2) := by
  intro p
  have hrun : p.run #[] ⟨9, 2⟩ = .error (.missingInput 2) := by
    simp [p, Program.run, runFrom, execute, State.goTo, State.store, Tape.touched_write]
  have hspent : p.run #[] ⟨2, 2⟩ = .error (.exceeded .instructions 2) := by
    simp [p, Program.run, runFrom, execute, State.goTo, State.store, Tape.touched_write]
  obtain ⟨hfed, -, hunfed⟩ := missingInput_exact p 9 2
  obtain ⟨hread, c, hc, -, hmissing, -⟩ := hunfed 2 hrun
  obtain ⟨-, hsame, -⟩ := missingInput_exact p 2 2
  refine ⟨rfl, hrun, hread, ⟨c, hc, hmissing⟩, hfed #[65] (by decide) 2, ?_⟩
  intro inputs
  rw [hsame (by rw [hspent]; simp) inputs, hspent]

end Program

end Tapecraft
