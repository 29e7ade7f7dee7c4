import Mathlib
import Tapecraft.Proofs.Machine.MissingInput

/-! # The counts of a run

Each instruction adds one to the count of executed instructions, and it touches one cell and prints
one character at most, so neither the cells nor the characters get ahead of that count. The count
itself stays within the ceiling and tells the states of a run apart. Hence a run looks up no more
instructions than the ceiling allows and one, it comes to its end, and no count that it goes on
with leaves the range that ceilings, code and inputs give.
-/
namespace Tapecraft

namespace Machine
variable {code : Array Instruction} {inputs : Array Int64} {limits : Limits}

theorem touched_le_succ_of_onward {i : Instruction} {s t : State}
    (h : (execute inputs i s).onward? = some t) : t.tape.touched ≤ s.tape.touched + 1 := by
  rcases (onward_spec h).2 with hs | hs | ⟨value, hs⟩
  · rw [hs]
    exact Nat.le_succ _
  · rw [hs, Tape.touched_touch]
    split <;> omega
  · rw [hs, Tape.touched_write]
    split <;> omega

theorem length_output_le_succ_of_onward {i : Instruction} {s t : State}
    (h : (execute inputs i s).onward? = some t) : t.output.length ≤ s.output.length + 1 := by
  rcases onward_cases h with ⟨d, -, rfl⟩ | ⟨d, -, rfl⟩ | ⟨-, rfl⟩ | ⟨value, -, -, rfl⟩ |
    ⟨target, -, rfl⟩ | ⟨target, -, rfl⟩
  · exact Nat.le_succ _
  · exact Nat.le_succ _
  · exact (String.length_push _).le
  · exact Nat.le_succ _
  · exact Nat.le_succ _
  · exact Nat.le_succ _

structure Accounted (s : State) : Prop where
  touched : s.tape.touched ≤ s.executed
  output : s.output.length ≤ s.executed

theorem Accounted.onward {i : Instruction} {s t : State} (hs : Accounted s)
    (h : (execute inputs i s).onward? = some t) : Accounted t := by
  have hexecuted : t.executed = s.executed + 1 := (onward_spec h).1
  have htouched := touched_le_succ_of_onward h
  have hlength := length_output_le_succ_of_onward h
  have hcells := hs.touched
  have hprinted := hs.output
  exact ⟨by omega, by omega⟩

namespace Visited

theorem accounted {a : Arrival} {s : State} (h : Visited code inputs limits a s) :
    Accounted s := by
  induction h with
  | start => exact ⟨by simp, by simp⟩
  | next _ _ _ ht _ ih => exact ih.onward (by rw [ht]; rfl)
  | jump _ _ _ ht ih => exact ih.onward (by rw [ht]; rfl)

theorem exists_onward {a : Arrival} {t : State} (h : Visited code inputs limits a t)
    (hpos : 0 < t.executed) :
    ∃ b s i, Visited code inputs limits b s ∧ s.executed + 1 = t.executed ∧
      code[s.counter]? = some i ∧ (execute inputs i s).onward? = some t := by
  cases h with
  | start => exact absurd hpos (Nat.lt_irrefl 0)
  | next hs hi _ ht _ => exact ⟨_, _, _, hs, (executed_of_next ht).symm, hi, by rw [ht]; rfl⟩
  | jump hs hi _ ht => exact ⟨_, _, _, hs, (executed_of_jump ht).symm, hi, by rw [ht]; rfl⟩

theorem eq_blank {a : Arrival} {s : State} (h : Visited code inputs limits a s)
    (hzero : s.executed = 0) : s = {} := by
  cases h with
  | start => rfl
  | next _ _ _ ht _ => simp [executed_of_next ht] at hzero
  | jump _ _ _ ht => simp [executed_of_jump ht] at hzero

/-- A run comes to one state only behind each count of instructions. -/
theorem eq_of_executed_eq {a b : Arrival} {s t : State} (hs : Visited code inputs limits a s)
    (ht : Visited code inputs limits b t) (h : s.executed = t.executed) : s = t := by
  induction hn : s.executed generalizing a b s t with
  | zero => rw [hs.eq_blank hn, ht.eq_blank (h.symm.trans hn)]
  | succ n ih =>
    obtain ⟨a', s', i, hs', hsn, hi, hsi⟩ := hs.exists_onward (by omega)
    obtain ⟨b', t', j, ht', htn, hj, htj⟩ := ht.exists_onward (by omega)
    obtain rfl : s' = t' := ih hs' ht' (by omega) (by omega)
    obtain rfl : i = j := Option.some.inj (hi.symm.trans hj)
    exact Option.some.inj (hsi.symm.trans htj)

end Visited

def entered (code : Array Instruction) (inputs : Array Int64) (limits : Limits) : Set State :=
  {s | (∃ a, Visited code inputs limits a s) ∧ s.counter < code.size}

/-- A run has counted one more instruction each time it looks up the next one, so it comes to no
state twice, and to one state at most with each count. -/
theorem encard_entered_le (code : Array Instruction) (inputs : Array Int64) (limits : Limits) :
    (entered code inputs limits).encard ≤ limits.instructions + 1 := by
  have hinj : Set.InjOn State.executed (entered code inputs limits) := by
    rintro s ⟨⟨a, hs⟩, -⟩ t ⟨⟨b, ht⟩, -⟩ h
    exact hs.eq_of_executed_eq ht h
  have hrange : State.executed '' entered code inputs limits ⊆
      (Finset.range (limits.instructions + 1) : Set ℕ) := by
    rintro _ ⟨s, ⟨⟨a, hs⟩, -⟩, rfl⟩
    exact Finset.mem_coe.mpr (Finset.mem_range.mpr (Nat.lt_succ_of_le hs.executed_le))
  rw [← hinj.encard_image]
  refine (Set.encard_le_encard hrange).trans ?_
  rw [Set.encard_coe_eq_coe_finsetCard, Finset.card_range]
  exact le_rfl

/-- Where an instruction is executed, the counts it goes on with are in range: the instruction
behind it, the instructions executed and the inputs read. -/
theorem Visited.counts_in_range {a : Arrival} {s : State} {i : Instruction}
    (h : Visited code inputs limits a s) (hi : code[s.counter]? = some i)
    (hb : s.executed < limits.instructions) :
    s.counter + 1 ≤ code.size ∧ s.executed + 1 ≤ limits.instructions ∧
      (0 < inputs.size → s.nextInput + 1 ≤ inputs.size ∧
        ∃ value, inputs[s.nextInput]? = some value) := by
  obtain ⟨hlt, -⟩ := Array.getElem?_eq_some_iff.mp hi
  refine ⟨hlt, hb, ?_⟩
  intro hpos
  have hnext := h.nextInput_lt hpos
  exact ⟨hnext, _, Array.getElem?_eq_getElem hnext⟩

theorem Ends.accounted {s : State} {o : Outcome} (h : Ends code inputs limits s (.ok o))
    (hs : Accounted s) : o.touched ≤ o.executed ∧ o.output.length ≤ o.executed := by
  have houtput : o.output = s.output := by
    rcases ends_ok_iff.mp h with ⟨-, rfl⟩ | ⟨-, -, rfl⟩
    · rfl
    · rfl
  rw [h.touched_eq, houtput]
  exact ⟨hs.touched.trans h.executed_le, hs.output.trans h.executed_le⟩

end Machine

namespace Program
open Machine

/-- At every state that a run goes through, the executed instructions are within the ceiling, the
next input is one of the inputs if there are any, and neither more cells were touched nor more
characters printed than instructions executed; the same is true of an outcome. So with 64 bits for
the ceiling and the sizes, nothing that an instruction counts on is out of range. The states at
which there is an instruction to execute are one more than the ceiling at most, and the run ends
with its result at one of the states it goes through. -/
theorem counts_stay_in_range (p : Program) (inputs : Array Int64) (limits : Limits) :
    (∀ a s, Visited p.code inputs limits a s →
      s.executed ≤ limits.instructions ∧ (0 < inputs.size → s.nextInput < inputs.size) ∧
        s.tape.touched ≤ s.executed ∧ s.output.length ≤ s.executed) ∧
    (limits.instructions < 2 ^ 64 → p.code.size < 2 ^ 64 → inputs.size < 2 ^ 64 →
      ∀ a s i, Visited p.code inputs limits a s → p.code[s.counter]? = some i →
        s.executed < limits.instructions →
          s.executed + 1 < 2 ^ 64 ∧ s.counter + 1 < 2 ^ 64 ∧
            (0 < inputs.size → s.nextInput + 1 < 2 ^ 64 ∧
              ∃ value, inputs[s.nextInput]? = some value)) ∧
    (entered p.code inputs limits).encard ≤ limits.instructions + 1 ∧
    (∃ a s, Visited p.code inputs limits a s ∧
      Ends p.code inputs limits s (p.run inputs limits)) ∧
    ∀ o, p.run inputs limits = .ok o → o.touched ≤ o.executed ∧ o.output.length ≤ o.executed := by
  refine ⟨?_, ?_, encard_entered_le _ _ _, run_eq_iff.mp rfl, ?_⟩
  · intro a s hs
    exact ⟨hs.executed_le, hs.nextInput_lt, hs.accounted.touched, hs.accounted.output⟩
  · intro hlimit hcode hinputs a s i hs hi hb
    obtain ⟨hcounter, hexecuted, hread⟩ := hs.counts_in_range hi hb
    refine ⟨hexecuted.trans_lt hlimit, hcounter.trans_lt hcode, ?_⟩
    intro hpos
    obtain ⟨hnext, hvalue⟩ := hread hpos
    exact ⟨hnext.trans_lt hinputs, hvalue⟩
  · intro o ho
    obtain ⟨a, s, hs, hend⟩ := run_eq_iff.mp ho
    exact hend.accounted hs.accounted

theorem counts_stay_in_range_far_jump :
    let p : Program := ofInstructions #[.read, .print, .jumpIfNonzero 18446744073709551615]
    let limits : Limits := ⟨18446744073709551615, 18446744073709551615⟩
    let s : State :=
      { State.store {} (321 : Int64).toUInt64.toUInt8 with nextInput := 1 % 1 }.goTo 1
    Visited p.code #[321] limits .next s ∧ s.tape.touched ≤ s.executed ∧
      s.executed + 1 < 2 ^ 64 ∧ s.counter + 1 < 2 ^ 64 ∧ s.nextInput + 1 < 2 ^ 64 ∧
      ∃ o, p.run #[321] limits = .ok o ∧ o.output = "A" ∧ o.touched ≤ o.executed ∧
        o.output.length ≤ o.executed := by
  intro p limits s
  have hcells : s.tape.touched ≤ limits.cells := by
    simp [s, limits, State.goTo, State.store, Tape.touched_write]
  have hs : Visited p.code #[321] limits .next s :=
    Visited.start.next (i := .read) rfl (by decide) rfl hcells
  have hletter : (321 : Int64).toUInt64.toUInt8 = 65 := by decide
  have hprinted : String.singleton (.ofUInt8 65) = "A" := by rfl
  have hsmall : p.run #[321] ⟨5, limits.cells⟩ = .ok ⟨"A", 3, 1⟩ := by
    simp [p, limits, ofInstructions, Program.run, runFrom, execute, State.goTo, State.store,
      State.look, State.emit, State.current, State.outcome, Tape.touched_write, Tape.touched_touch,
      Tape.isTouched_write, Tape.isTouched_touch, Tape.cell_write, hletter, hprinted]
  have hrun : p.run #[321] limits = .ok ⟨"A", 3, 1⟩ := run_of_executed_le hsmall (by decide)
  obtain ⟨hheads, hrange, -, -, hok⟩ := counts_stay_in_range p #[321] limits
  obtain ⟨hexecuted, hcounter, hread⟩ :=
    hrange (by decide) (by decide) (by decide) .next s .print hs rfl (by decide)
  exact ⟨hs, (hheads .next s hs).2.2.1, hexecuted, hcounter, (hread (by decide)).1, _, hrun, rfl,
    hok _ hrun⟩

end Program

end Tapecraft
