import Mathlib
import Tapecraft.Proofs.Machine.Visited

/-! # What the ceilings promise

The instruction ceiling holds on every run that has an outcome. The cell ceiling does not: a jump
that is taken looks at its cell and is not checked afterwards. The overrun is one cell at most,
since no instruction moves the pointer between two jumps without being checked itself. Apart from
that the ceilings only cut a run short: a run that a ceiling did not cut is the same under every
higher one, and the count of instructions in an outcome is the smallest budget that suffices.
-/
namespace Tapecraft

namespace Machine
variable {code : Array Instruction} {inputs : Array Int64} {limits : Limits}

theorem ends_ok_iff {s : State} {o : Outcome} :
    Ends code inputs limits s (.ok o) ↔ code[s.counter]? = none ∧ o = s.outcome ∨
      code[s.counter]? = some .halt ∧ s.executed < limits.instructions ∧
        o = (s.goTo s.counter).outcome := by
  constructor
  · intro h
    cases h with
    | leave hi => exact Or.inl ⟨hi, rfl⟩
    | halt hi hb => exact Or.inr ⟨hi, hb, rfl⟩
  · rintro (⟨hi, rfl⟩ | ⟨hi, hb, rfl⟩)
    · exact .leave hi
    · exact .halt hi hb

namespace Ends

theorem touched_eq {s : State} {o : Outcome} (h : Ends code inputs limits s (.ok o)) :
    o.touched = s.tape.touched := by
  rcases ends_ok_iff.mp h with ⟨-, rfl⟩ | ⟨-, -, rfl⟩
  · rfl
  · rfl

theorem executed_le {s : State} {o : Outcome} (h : Ends code inputs limits s (.ok o)) :
    s.executed ≤ o.executed := by
  rcases ends_ok_iff.mp h with ⟨-, rfl⟩ | ⟨-, -, rfl⟩
  · exact le_rfl
  · exact Nat.le_succ _

theorem of_executed_le {s : State} {o : Outcome} (h : Ends code inputs limits s (.ok o))
    {limits' : Limits} (hn : o.executed ≤ limits'.instructions) :
    Ends code inputs limits' s (.ok o) := by
  rcases ends_ok_iff.mp h with ⟨hi, rfl⟩ | ⟨hi, -, rfl⟩
  · exact .leave hi
  · exact .halt hi hn

theorem raise_instructions {n n' m : ℕ} {s : State} {r : Except Fault Outcome}
    (h : Ends code inputs ⟨n, m⟩ s r)
    (hr : ∀ limit, r ≠ .error (.exceeded .instructions limit)) (hn : n ≤ n') :
    Ends code inputs ⟨n', m⟩ s r := by
  cases h with
  | leave hi => exact .leave hi
  | halt hi hb => exact .halt hi (hb.trans_le hn)
  | spent hi hb => exact absurd rfl (hr n)
  | unfed hi hb hin => exact .unfed hi (hb.trans_le hn) hin
  | crowded hi hb ht hc => exact .crowded hi (hb.trans_le hn) ht hc

theorem raise_cells {n m m' : ℕ} {s : State} {r : Except Fault Outcome}
    (h : Ends code inputs ⟨n, m⟩ s r) (hr : ∀ limit, r ≠ .error (.exceeded .cells limit)) :
    Ends code inputs ⟨n, m'⟩ s r := by
  cases h with
  | leave hi => exact .leave hi
  | halt hi hb => exact .halt hi hb
  | spent hi hb => exact .spent hi hb
  | unfed hi hb hin => exact .unfed hi hb hin
  | crowded hi hb ht hc => exact absurd rfl (hr m)

end Ends

namespace Visited

theorem raise {a : Arrival} {s : State} (h : Visited code inputs limits a s) {limits' : Limits}
    (hn : s.executed ≤ limits'.instructions) (hm : limits.cells ≤ limits'.cells) :
    Visited code inputs limits' a s := by
  induction h with
  | start => exact .start
  | next _ hi _ ht hc ih =>
    rw [executed_of_next ht] at hn
    exact (ih (Nat.le_of_succ_le hn)).next hi hn ht (hc.trans hm)
  | jump _ hi _ ht ih =>
    rw [executed_of_jump ht] at hn
    exact (ih (Nat.le_of_succ_le hn)).jump hi hn ht

/-- At most one cell more than allowed is touched, and that only behind a taken jump. -/
theorem touched_le_or {a : Arrival} {s : State} (h : Visited code inputs limits a s) :
    s.tape.touched ≤ limits.cells ∨
      s.tape.touched = limits.cells + 1 ∧ a = .jump ∧ s.tape.isTouched s.pointer = true := by
  induction h with
  | start => exact Or.inl (by simp)
  | next _ _ _ _ hc _ => exact Or.inl hc
  | @jump a i s t _ _ _ ht ih =>
    obtain ⟨target, rfl, -⟩ := jump_spec ht
    have hmark : (s.tape.touch s.pointer).isTouched s.pointer = true := by
      rw [Tape.isTouched_touch, beq_self_eq_true, Bool.true_or]
    have hcount := Tape.touched_touch s.tape s.pointer
    change (s.tape.touch s.pointer).touched ≤ limits.cells ∨
      (s.tape.touch s.pointer).touched = limits.cells + 1 ∧ _ ∧ _
    -- Behind an overrun the cell under the pointer is touched already, so a further jump adds none.
    rcases ih with hle | ⟨heq, -, hs⟩
    · by_cases hlt : (s.tape.touch s.pointer).touched ≤ limits.cells
      · exact Or.inl hlt
      · refine Or.inr ⟨?_, rfl, hmark⟩
        split at hcount <;> omega
    · rw [if_pos hs] at hcount
      exact Or.inr ⟨hcount.trans heq, rfl, hmark⟩

end Visited

end Machine

namespace Program
open Machine
variable {p : Program} {inputs : Array Int64} {limits : Limits}

/-- Every jump of the program leads to an instruction that is not a halt. -/
def JumpsOn (p : Program) : Prop :=
  ∀ target, .jumpIfZero target ∈ p.code ∨ .jumpIfNonzero target ∈ p.code →
    ∃ i, p.code[target]? = some i ∧ i ≠ .halt

theorem JumpsOn.not_ends {s : State} (h : p.JumpsOn) (hs : Visited p.code inputs limits .jump s)
    (o : Outcome) : ¬ Ends p.code inputs limits s (.ok o) := by
  intro hend
  cases hs with
  | @jump a i s t hs hi hb ht =>
    obtain ⟨target, rfl, hjump⟩ := jump_spec ht
    have hmem : .jumpIfZero target ∈ p.code ∨ .jumpIfNonzero target ∈ p.code := by
      rcases hjump with ⟨rfl, -⟩ | ⟨rfl, -⟩
      · exact Or.inl (Array.mem_of_getElem? hi)
      · exact Or.inr (Array.mem_of_getElem? hi)
    obtain ⟨j, hj, hne⟩ := h target hmem
    rcases ends_ok_iff.mp hend with ⟨hnone, -⟩ | ⟨hhalt, -, -⟩
    · cases hj.symm.trans hnone
    · cases hj.symm.trans hhalt
      exact hne rfl

theorem executed_le_of_ok {o : Outcome} (h : p.run inputs limits = .ok o) :
    o.executed ≤ limits.instructions := by
  obtain ⟨a, s, hs, hend⟩ := run_eq_iff.mp h
  rcases ends_ok_iff.mp hend with ⟨-, rfl⟩ | ⟨-, hb, rfl⟩
  · exact hs.executed_le
  · exact hb

theorem limit_of_spent {limit : ℕ}
    (h : p.run inputs limits = .error (.exceeded .instructions limit)) :
    limit = limits.instructions := by
  obtain ⟨a, s, -, hend⟩ := run_eq_iff.mp h
  cases hend
  rfl

/-- A run that has an outcome has kept the instruction ceiling. It has kept the cell ceiling too
unless it came to its end directly behind a taken jump, so a program whose jumps all lead on
keeps both. -/
theorem outcome_within_ceilings {o : Outcome} (h : p.run inputs limits = .ok o) :
    o.executed ≤ limits.instructions ∧
      (o.touched ≤ limits.cells ∨
        ∃ s, Visited p.code inputs limits .jump s ∧ Ends p.code inputs limits s (.ok o)) ∧
      (p.JumpsOn → o.touched ≤ limits.cells) := by
  have hcells : o.touched ≤ limits.cells ∨
      ∃ s, Visited p.code inputs limits .jump s ∧ Ends p.code inputs limits s (.ok o) := by
    obtain ⟨a, s, hs, hend⟩ := run_eq_iff.mp h
    rw [hend.touched_eq]
    rcases hs.touched_le_or with hle | ⟨-, rfl, -⟩
    · exact Or.inl hle
    · exact Or.inr ⟨s, hs, hend⟩
  refine ⟨executed_le_of_ok h, hcells, ?_⟩
  intro hjumps
  rcases hcells with hle | ⟨s, hs, hend⟩
  · exact hle
  · exact absurd hend (hjumps.not_ends hs o)

theorem outcome_within_ceilings_drained :
    let p : Program := ⟨"+[-]+", #[.add 1, .jumpIfZero 4, .add (-1), .jumpIfNonzero 2, .add 1]⟩
    compile "+[-]+" = .ok p ∧ ∃ o, p.run #[] ⟨5, 1⟩ = .ok o ∧ o.executed ≤ 5 ∧ o.touched ≤ 1 := by
  intro p
  have hrun : p.run #[] ⟨5, 1⟩ = .ok ⟨"", 5, 1⟩ := by
    have hone : (1 : Int8).toUInt8 = 1 := by decide
    simp [p, Program.run, runFrom, execute, State.goTo, State.store, State.look, State.current,
      State.outcome, Tape.touched_write, Tape.touched_touch, Tape.isTouched_write,
      Tape.isTouched_touch, Tape.cell_write, hone]
  have hjumps : p.JumpsOn := by
    intro target htarget
    simp only [p, List.mem_toArray, List.mem_cons, reduceCtorEq, Instruction.jumpIfZero.injEq,
      Instruction.jumpIfNonzero.injEq, List.not_mem_nil, or_false, false_or] at htarget
    rcases htarget with rfl | rfl
    · exact ⟨.add 1, rfl, by simp⟩
    · exact ⟨.add (-1), rfl, by simp⟩
  obtain ⟨hexecuted, -, hcells⟩ := outcome_within_ceilings hrun
  exact ⟨rfl, _, hrun, hexecuted, hcells hjumps⟩

/-- The loop is skipped by a jump out of the code, behind which nothing is checked. -/
theorem run_skipped_loop :
    ∃ p, compile "+>[]" = .ok p ∧ p.run #[] ⟨10, 1⟩ = .ok ⟨"", 3, 2⟩ := by
  refine ⟨⟨"+>[]", #[.add 1, .move 1, .jumpIfZero 4, .jumpIfNonzero 3]⟩, rfl, ?_⟩
  simp [Program.run, runFrom, execute, State.goTo, State.store, State.look, State.current,
    State.outcome, Tape.touched_write, Tape.touched_touch, Tape.isTouched_write, Tape.cell_write]

theorem not_outcome_within_cells :
    ¬ ∀ (p : Program) (inputs : Array Int64) (limits : Limits) (o : Outcome),
      p.run inputs limits = .ok o →
        o.executed ≤ limits.instructions ∧ o.touched ≤ limits.cells := by
  intro h
  obtain ⟨p, -, hrun⟩ := run_skipped_loop
  have hcells : 2 ≤ 1 := (h p #[] ⟨10, 1⟩ _ hrun).2
  omega

/-- Wherever a run comes, it has touched at most one cell more than allowed, and that only if the
instruction executed last was a taken jump. An outcome with more cells than allowed has one more,
and its run came to the end of the code or to a halt directly behind a taken jump. -/
theorem overrun_by_one_cell (p : Program) (inputs : Array Int64) (limits : Limits) :
    (∀ a s, Visited p.code inputs limits a s →
      s.tape.touched ≤ limits.cells + 1 ∧ (s.tape.touched = limits.cells + 1 → a = .jump)) ∧
    ∀ o, p.run inputs limits = .ok o → limits.cells < o.touched →
      o.touched = limits.cells + 1 ∧ ∃ s, Visited p.code inputs limits .jump s ∧
        (p.code[s.counter]? = none ∧ o = s.outcome ∨
          p.code[s.counter]? = some .halt ∧ o = (s.goTo s.counter).outcome) := by
  constructor
  · intro a s hs
    rcases hs.touched_le_or with hle | ⟨heq, ha, -⟩
    · exact ⟨by omega, by omega⟩
    · exact ⟨heq.le, fun _ => ha⟩
  · intro o ho hlt
    obtain ⟨a, s, hs, hend⟩ := run_eq_iff.mp ho
    rw [hend.touched_eq] at hlt ⊢
    rcases hs.touched_le_or with hle | ⟨heq, rfl, -⟩
    · omega
    · refine ⟨heq, s, hs, ?_⟩
      rcases ends_ok_iff.mp hend with hleave | ⟨hhalt, -, hout⟩
      · exact Or.inl hleave
      · exact Or.inr ⟨hhalt, hout⟩

theorem overrun_by_one_cell_skipped_loop :
    ∃ p s, compile "+>[]" = .ok p ∧ p.run #[] ⟨10, 1⟩ = .ok ⟨"", 3, 2⟩ ∧
      Visited p.code #[] ⟨10, 1⟩ .jump s ∧ s.tape.touched ≤ 2 := by
  obtain ⟨p, hp, hrun⟩ := run_skipped_loop
  obtain ⟨hvisited, hok⟩ := overrun_by_one_cell p #[] ⟨10, 1⟩
  obtain ⟨-, s, hs, -⟩ := hok _ hrun (by decide)
  exact ⟨p, s, hp, hrun, hs, (hvisited _ s hs).1⟩

theorem run_raise_instructions {n n' m : ℕ}
    (h : ∀ limit, p.run inputs ⟨n, m⟩ ≠ .error (.exceeded .instructions limit)) (hn : n ≤ n') :
    p.run inputs ⟨n', m⟩ = p.run inputs ⟨n, m⟩ := by
  obtain ⟨a, s, hs, hend⟩ := run_eq_iff.mp (Eq.refl (p.run inputs ⟨n, m⟩))
  have hs' : Visited p.code inputs ⟨n', m⟩ a s := hs.raise (hs.executed_le.trans hn) le_rfl
  exact run_eq_iff.mpr ⟨a, s, hs', hend.raise_instructions h hn⟩

theorem run_raise_cells {n m m' : ℕ}
    (h : ∀ limit, p.run inputs ⟨n, m⟩ ≠ .error (.exceeded .cells limit)) (hm : m ≤ m') :
    p.run inputs ⟨n, m'⟩ = p.run inputs ⟨n, m⟩ := by
  obtain ⟨a, s, hs, hend⟩ := run_eq_iff.mp (Eq.refl (p.run inputs ⟨n, m⟩))
  have hs' : Visited p.code inputs ⟨n, m'⟩ a s := hs.raise hs.executed_le hm
  exact run_eq_iff.mpr ⟨a, s, hs', hend.raise_cells h⟩

theorem run_of_executed_le {n n' m : ℕ} {o : Outcome} (h : p.run inputs ⟨n, m⟩ = .ok o)
    (hn : o.executed ≤ n') : p.run inputs ⟨n', m⟩ = .ok o := by
  obtain ⟨a, s, hs, hend⟩ := run_eq_iff.mp h
  have hs' : Visited p.code inputs ⟨n', m⟩ a s := hs.raise (hend.executed_le.trans hn) le_rfl
  exact run_eq_iff.mpr ⟨a, s, hs', hend.of_executed_le hn⟩

theorem run_spent_or_eq {n n' m : ℕ} (hn : n' ≤ n) :
    p.run inputs ⟨n', m⟩ = .error (.exceeded .instructions n') ∨
      p.run inputs ⟨n, m⟩ = p.run inputs ⟨n', m⟩ := by
  by_cases hspent : ∃ limit, p.run inputs ⟨n', m⟩ = .error (.exceeded .instructions limit)
  · obtain ⟨limit, hlimit⟩ := hspent
    obtain rfl : limit = n' := limit_of_spent hlimit
    exact Or.inl hlimit
  · exact Or.inr (run_raise_instructions (not_exists.mp hspent) hn)

theorem run_of_lt_executed {n n' m : ℕ} {o : Outcome} (h : p.run inputs ⟨n, m⟩ = .ok o)
    (hn : n' < o.executed) :
    p.run inputs ⟨n', m⟩ = .error (.exceeded .instructions n') := by
  have hbound : o.executed ≤ n := executed_le_of_ok h
  have hle : n' ≤ n := by omega
  rcases run_spent_or_eq hle with hspent | hsame
  · exact hspent
  · -- The run under the larger budget counts more instructions than the smaller one allows.
    have hcount : o.executed ≤ n' := executed_le_of_ok (hsame.symm.trans h)
    omega

/-- A run that the instruction ceiling did not cut is the same under every higher one, and so for
the cell ceiling. An outcome is reached under exactly the budgets that allow its own count of
instructions, and a smaller budget is reported as passed. -/
theorem ceilings_only_cut (p : Program) (inputs : Array Int64) (n m : ℕ) :
    ((∀ limit, p.run inputs ⟨n, m⟩ ≠ .error (.exceeded .instructions limit)) →
      ∀ n' ≥ n, p.run inputs ⟨n', m⟩ = p.run inputs ⟨n, m⟩) ∧
    ((∀ limit, p.run inputs ⟨n, m⟩ ≠ .error (.exceeded .cells limit)) →
      ∀ m' ≥ m, p.run inputs ⟨n, m'⟩ = p.run inputs ⟨n, m⟩) ∧
    ∀ o, p.run inputs ⟨n, m⟩ = .ok o → ∀ n',
      (o.executed ≤ n' → p.run inputs ⟨n', m⟩ = .ok o) ∧
      (n' < o.executed → p.run inputs ⟨n', m⟩ = .error (.exceeded .instructions n')) := by
  refine ⟨?_, ?_, ?_⟩
  · intro h n' hn
    exact run_raise_instructions h hn
  · intro h m' hm
    exact run_raise_cells h hm
  · intro o ho n'
    exact ⟨run_of_executed_le ho, run_of_lt_executed ho⟩

theorem ceilings_only_cut_halt :
    let p : Program := ofInstructions #[.add 1, .jumpIfNonzero 3, .print, .halt]
    p.run #[] ⟨5, 1⟩ = .ok ⟨"", 3, 1⟩ ∧ p.run #[] ⟨9, 1⟩ = .ok ⟨"", 3, 1⟩ ∧
      p.run #[] ⟨5, 8⟩ = .ok ⟨"", 3, 1⟩ ∧ p.run #[] ⟨3, 1⟩ = .ok ⟨"", 3, 1⟩ ∧
      p.run #[] ⟨2, 1⟩ = .error (.exceeded .instructions 2) := by
  intro p
  have hrun : p.run #[] ⟨5, 1⟩ = .ok ⟨"", 3, 1⟩ := by
    have hone : (1 : Int8).toUInt8 = 1 := by decide
    simp [p, ofInstructions, Program.run, runFrom, execute, State.goTo, State.store, State.look,
      State.current, State.outcome, Tape.touched_write, Tape.touched_touch, Tape.isTouched_write,
      Tape.cell_write, hone]
  obtain ⟨hinstructions, hcells, hbudget⟩ := ceilings_only_cut p #[] 5 1
  have huncut (resource : Resource) (limit : ℕ) :
      p.run #[] ⟨5, 1⟩ ≠ .error (.exceeded resource limit) := by
    intro h
    cases hrun.symm.trans h
  refine ⟨hrun, ?_, ?_, ?_, ?_⟩
  · exact (hinstructions (huncut .instructions) 9 (by decide)).trans hrun
  · exact (hcells (huncut .cells) 8 (by decide)).trans hrun
  · exact (hbudget _ hrun 3).1 le_rfl
  · exact (hbudget _ hrun 2).2 (by decide)

end Program

end Tapecraft
