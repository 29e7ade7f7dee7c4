import Mathlib
import Tapecraft.Proofs.Machine.Run

/-! # Compiled programs run as their blocks are walked

The machine with its jumps and the recursive walk over a block agree on every result: the
outcome with both its counts, and the fault with its position or limit. The walk keeps no
counter, so the two are compared by resuming the machine at a given instruction with what
the walk has left of the budget of instructions.
-/
namespace Tapecraft

theorem bind_eq_ok_iff {ε α β : Type} {x : Except ε α} {f : α → Except ε β} {b : β} :
    x.bind f = .ok b ↔ ∃ a, x = .ok a ∧ f a = .ok b := by
  cases x <;> simp [Except.bind]

namespace Block
open Machine
variable {code : Array Instruction} {inputs : Array Int64} {limits : Limits}

/-- Runs the machine on from an instruction, with what is left of the budget. -/
def resume (code : Array Instruction) (inputs : Array Int64) (limits : Limits) (counter : ℕ)
    (s : State) : Except Fault Outcome :=
  runFrom code inputs limits (limits.instructions - s.executed) { s with counter := counter }

theorem permit_of_lt {s : State} (h : s.executed < limits.instructions) :
    permit limits s = .ok () := if_pos h

theorem permit_of_le {s : State} (h : limits.instructions ≤ s.executed) :
    permit limits s = .error (.exceeded .instructions limits.instructions) :=
  if_neg (Nat.not_lt.mpr h)

theorem resume_of_le {counter : ℕ} {s : State} {i : Instruction} (hi : code[counter]? = some i)
    (h : limits.instructions ≤ s.executed) :
    resume code inputs limits counter s =
      .error (.exceeded .instructions limits.instructions) := by
  rw [resume, Nat.sub_eq_zero_of_le h]
  exact runFrom_zero hi

theorem resume_of_lt {counter : ℕ} {s : State} {i : Instruction} (hi : code[counter]? = some i)
    (h : s.executed < limits.instructions) :
    resume code inputs limits counter s =
      proceed code inputs limits (limits.instructions - (s.executed + 1)) counter
        (execute inputs i { s with counter := counter }) :=
  runFrom_of_lt (s := { s with counter := counter }) hi h

theorem settle_bind_resume (counter : ℕ) (s : State) :
    (settle limits s).bind (resume code inputs limits counter) =
      if limits.cells < s.tape.touched then .error (.exceeded .cells limits.cells)
      else runFrom code inputs limits (limits.instructions - (s.executed + 1))
        (s.goTo counter) := by
  unfold settle
  by_cases h : s.tape.touched ≤ limits.cells
  · rw [if_pos h, if_neg (Nat.not_lt.mpr h)]
    rfl
  · rw [if_neg h, if_pos (Nat.lt_of_not_le h)]
    rfl

theorem resume_action {counter : ℕ} {a : Action} (hi : code[counter]? = some a.instruction)
    (s : State) :
    resume code inputs limits counter s =
      (perform inputs limits counter a s).bind (resume code inputs limits (counter + 1)) := by
  by_cases h : s.executed < limits.instructions
  · rw [resume_of_lt hi h]
    unfold perform
    rw [permit_of_lt h]
    cases a with
    | right => exact (settle_bind_resume (counter + 1) { s with pointer := s.pointer + 1 }).symm
    | left =>
      rw [show s.pointer - 1 = s.pointer + -1 from Int64.sub_eq_add_neg _ _]
      exact (settle_bind_resume (counter + 1) { s with pointer := s.pointer + -1 }).symm
    | increment => exact (settle_bind_resume (counter + 1) (s.store (s.current + 1))).symm
    | decrement =>
      rw [show s.current - 1 = s.current + (-1 : Int8).toUInt8 from UInt8.sub_eq_add_neg _ _]
      exact (settle_bind_resume (counter + 1) (s.store (s.current + (-1 : Int8).toUInt8))).symm
    | print => exact (settle_bind_resume (counter + 1) (s.look.emit (.ofUInt8 s.current))).symm
    | read =>
      cases hr : inputs[s.nextInput]? with
      | none => simp [Action.instruction, execute, hr, proceed, bind, Except.bind]
      | some value =>
        simp only [Action.instruction, execute, hr]
        exact (settle_bind_resume (counter + 1) { s.store value.toUInt64.toUInt8 with
          nextInput := (s.nextInput + 1) % inputs.size }).symm
  · have h := Nat.le_of_not_lt h
    rw [resume_of_le hi h]
    unfold perform
    rw [permit_of_le h]
    rfl

theorem executed_of_settle {s t : State} {n : ℕ} (h : settle limits s = .ok t)
    (hs : s.executed = n) : t.executed = n + 1 := by
  unfold settle at h
  split at h
  · cases h
    exact congrArg (· + 1) hs
  · cases h

theorem executed_of_perform {position : ℕ} {a : Action} {s t : State}
    (h : perform inputs limits position a s = .ok t) : t.executed = s.executed + 1 := by
  obtain ⟨_, -, h⟩ := bind_eq_ok_iff.mp h
  cases a with
  | read =>
    cases hr : inputs[s.nextInput]? with
    | none => simp [hr] at h
    | some value =>
      simp only [hr] at h
      exact executed_of_settle h rfl
  | _ => exact executed_of_settle h rfl

theorem executed_le_of_rounds {body : State → Except Fault State}
    (hbody : ∀ s t, body s = .ok t → s.executed ≤ t.executed) {bound : ℕ} {s t : State}
    (h : rounds limits body bound s = .ok t) : s.executed ≤ t.executed := by
  induction bound generalizing s with
  | zero => simp [rounds] at h
  | succ bound ih =>
    obtain ⟨u, hu, h⟩ := bind_eq_ok_iff.mp h
    obtain ⟨_, -, h⟩ := bind_eq_ok_iff.mp h
    have hsu := hbody s u hu
    split at h
    · have ht : t.executed = u.executed + 1 := executed_of_settle h rfl
      omega
    · have hut : u.executed + 1 ≤ t.executed := ih h
      omega

theorem executed_le_of_walk {b : Block} {position : ℕ} {s t : State}
    (h : walk inputs limits b position s = .ok t) : s.executed ≤ t.executed := by
  induction b generalizing position s t with
  | done =>
    cases h
    exact le_rfl
  | act a rest ih =>
    obtain ⟨u, hu, h⟩ := bind_eq_ok_iff.mp h
    have hsu := executed_of_perform hu
    have hut := ih h
    omega
  | loop body rest ihb ihr =>
    obtain ⟨_, -, h⟩ := bind_eq_ok_iff.mp h
    split at h
    · have hst : s.executed + 1 ≤ t.executed := ihr h
      omega
    · obtain ⟨u, hu, h⟩ := bind_eq_ok_iff.mp h
      obtain ⟨v, hv, h⟩ := bind_eq_ok_iff.mp h
      have hsu : u.executed = s.executed + 1 := executed_of_settle hu rfl
      have huv := executed_le_of_rounds (fun _ _ => ihb) hv
      have hvt := ihr h
      omega

theorem walk_of_le {s : State} (h : limits.instructions ≤ s.executed) (b : Block)
    (position : ℕ) :
    walk inputs limits b position s = .ok s ∨
      walk inputs limits b position s =
        .error (.exceeded .instructions limits.instructions) := by
  cases b with
  | done => exact Or.inl rfl
  | act a rest =>
    right
    unfold walk perform
    rw [permit_of_le h]
    rfl
  | loop body rest =>
    right
    unfold walk
    rw [permit_of_le h]
    rfl

theorem rounds_succ (body : Block) (position : ℕ) {bound : ℕ} {s : State}
    (h : limits.instructions - s.executed ≤ bound) :
    rounds limits (walk inputs limits body position) bound s =
      rounds limits (walk inputs limits body position) (bound + 1) s := by
  induction bound generalizing s with
  | zero =>
    have hs : limits.instructions ≤ s.executed := by omega
    have hwalk : walk inputs limits body position s = .ok s ∨ _ := walk_of_le hs body position
    rcases hwalk with hw | hw
    · simp [rounds, hw, permit_of_le hs, bind, Except.bind]
    · simp [rounds, hw, bind, Except.bind]
  | succ bound ih =>
    rw [rounds]
    conv_rhs => rw [rounds]
    cases hw : walk inputs limits body position s with
    | error f => rfl
    | ok t =>
      have hst := executed_le_of_walk hw
      have hnext : limits.instructions - (counted t.look).executed ≤ bound := by
        change limits.instructions - (t.executed + 1) ≤ bound
        omega
      simp only [bind, Except.bind, ih hnext]

/-- The rounds of a loop do not depend on the bound that makes them end: a round is the body,
then the test, and then the rounds again unless the test found zero. -/
theorem rounds_unfold (body : Block) (position : ℕ) (s : State) :
    rounds limits (walk inputs limits body position) limits.instructions s = (do
      let t ← walk inputs limits body position s
      permit limits t
      if t.current = 0 then
        settle limits t.look
      else
        rounds limits (walk inputs limits body position) limits.instructions (counted t.look)) :=
  rounds_succ body position (Nat.sub_le _ _)

theorem resume_openTest {counter target : ℕ} (hi : code[counter]? = some (.jumpIfZero target))
    (s : State) :
    resume code inputs limits counter s = (permit limits s).bind fun _ =>
      if s.current = 0 then resume code inputs limits target (counted s.look)
      else (settle limits s.look).bind (resume code inputs limits (counter + 1)) := by
  by_cases h : s.executed < limits.instructions
  · rw [resume_of_lt hi h, permit_of_lt h]
    by_cases hz : s.current = 0
    · simp only [execute, Except.bind, if_pos hz]
      rw [if_pos (show State.current { s with counter := counter } = 0 from hz)]
      rfl
    · simp only [execute, Except.bind, if_neg hz]
      rw [if_neg (show ¬ State.current { s with counter := counter } = 0 from hz)]
      exact (settle_bind_resume (counter + 1) s.look).symm
  · have h := Nat.le_of_not_lt h
    rw [resume_of_le hi h, permit_of_le h]
    rfl

theorem resume_closeTest {counter target : ℕ}
    (hi : code[counter]? = some (.jumpIfNonzero target)) (s : State) :
    resume code inputs limits counter s = (permit limits s).bind fun _ =>
      if s.current = 0 then (settle limits s.look).bind (resume code inputs limits (counter + 1))
      else resume code inputs limits target (counted s.look) := by
  by_cases h : s.executed < limits.instructions
  · rw [resume_of_lt hi h, permit_of_lt h]
    by_cases hz : s.current = 0
    · simp only [execute, Except.bind, if_pos hz]
      rw [if_pos (show State.current { s with counter := counter } = 0 from hz)]
      exact (settle_bind_resume (counter + 1) s.look).symm
    · simp only [execute, Except.bind, if_neg hz]
      rw [if_neg (show ¬ State.current { s with counter := counter } = 0 from hz)]
      rfl
  · have h := Nat.le_of_not_lt h
    rw [resume_of_le hi h, permit_of_le h]
    rfl

/-- The rounds of a loop, once its body is known to run as it is walked. The induction is on
what is left of the budget, which every round shortens by its test. -/
theorem resume_rounds {start : ℕ} {body : Block}
    (hbody : ∀ s, resume code inputs limits start s =
      (walk inputs limits body start s).bind (resume code inputs limits (start + body.size)))
    (hi : code[start + body.size]? = some (.jumpIfNonzero start)) (s : State) :
    resume code inputs limits start s =
      (rounds limits (walk inputs limits body start) limits.instructions s).bind
        (resume code inputs limits (start + body.size + 1)) := by
  induction hn : limits.instructions - s.executed using Nat.strong_induction_on generalizing s with
  | _ n ih =>
    rw [hbody s, rounds_unfold]
    cases hw : walk inputs limits body start s with
    | error f => rfl
    | ok t =>
      have hst := executed_le_of_walk hw
      simp only [bind, Except.bind]
      rw [resume_closeTest hi]
      by_cases h : t.executed < limits.instructions
      · rw [permit_of_lt h]
        by_cases hz : t.current = 0
        · simp only [Except.bind, if_pos hz]
        · simp only [Except.bind, if_neg hz]
          refine ih (limits.instructions - (t.executed + 1)) ?_ (counted t.look) rfl
          omega
      · rw [permit_of_le (Nat.le_of_not_lt h)]
        rfl

/-- Where the instructions of a block stand in a program, the machine does to a state what the
walk does, and goes on behind them. -/
theorem resume_block (b : Block) {start : ℕ} (hc : Holds code start (b.code start)) (s : State) :
    resume code inputs limits start s =
      (walk inputs limits b start s).bind (resume code inputs limits (start + b.size)) := by
  induction b generalizing start s with
  | done => rfl
  | act a rest ih =>
    obtain ⟨ha, hrest⟩ := hc
    rw [resume_action ha, walk]
    cases hp : perform inputs limits start a s with
    | error f => rfl
    | ok t =>
      simp only [bind, Except.bind, ih hrest, size]
      rw [show start + 1 + rest.size = start + (rest.size + 1) by omega]
  | loop body rest ihb ihr =>
    obtain ⟨hopen, hc⟩ := hc
    obtain ⟨hbody, hclose, hrest⟩ := holds_append.mp hc
    rw [length_code] at hclose hrest
    rw [show start + 1 + body.size + 1 = start + body.size + 2 by omega] at hrest
    rw [resume_openTest hopen, walk]
    by_cases h : s.executed < limits.instructions
    · rw [permit_of_lt h]
      have hend : start + body.size + 2 + rest.size = start + (loop body rest).size := by
        simp only [size]
        omega
      by_cases hz : s.current = 0
      · simp only [bind, Except.bind, if_pos hz, ihr hrest, hend]
      · simp only [bind, Except.bind, if_neg hz]
        cases hs : settle limits s.look with
        | error f => rfl
        | ok t =>
          simp only
          rw [resume_rounds (ihb hbody) hclose t,
            show start + 1 + body.size + 1 = start + body.size + 2 by omega]
          cases hr : rounds limits (walk inputs limits body (start + 1)) limits.instructions t with
          | error f => rfl
          | ok u => simp only [Except.bind, ihr hrest, hend]
    · rw [permit_of_le (Nat.le_of_not_lt h)]
      rfl

theorem run_code (b : Block) (source : String) :
    Program.run ⟨source, (b.code 0).toArray⟩ inputs limits = b.run inputs limits := by
  have hend (t : State) :
      resume (b.code 0).toArray inputs limits (0 + b.size) t = .ok t.outcome := by
    unfold resume
    exact runFrom_of_none (by simp) _
  have hrun : resume (b.code 0).toArray inputs limits 0 {} = _ :=
    resume_block b (holds_self (b.code 0)) {}
  rw [funext hend] at hrun
  exact hrun

end Block

namespace Program

/-- Text that compiles has exactly one tree of actions and loops, and running the compiled
program gives, for all inputs and ceilings, the result of walking that tree: the same outcome
with the same counts, or the same fault. A single action has the meaning that the machine gives it
in both; what that is on the tape is said for the plain tape. -/
theorem run_eq_walk {source : String} {p : Program} (h : compile source = .ok p) :
    ∃ b : Block, b.commands = Command.ofText source.toList ∧
      (∀ c : Block, c.commands = Command.ofText source.toList → c = b) ∧
      ∀ (inputs : Array Int64) (limits : Limits), p.run inputs limits = b.run inputs limits := by
  obtain ⟨b, hb, rfl⟩ := compile_eq_ok_iff.mp h
  refine ⟨b, hb, ?_, ?_⟩
  · intro c hc
    exact Block.commands_injective (hc.trans hb.symm)
  · intro inputs limits
    exact b.run_code source

theorem run_eq_walk_nested :
    let p : Program := ⟨"+[[-]>,]x", #[.add 1, .jumpIfZero 8, .jumpIfZero 5, .add (-1),
      .jumpIfNonzero 3, .move 1, .read, .jumpIfNonzero 2]⟩
    let b : Block := .act .increment
      (.loop (.loop (.act .decrement .done) (.act .right (.act .read .done))) .done)
    compile "+[[-]>,]x" = .ok p ∧
      ∀ (inputs : Array Int64) (limits : Limits), p.run inputs limits = b.run inputs limits := by
  intro p b
  have hc : compile "+[[-]>,]x" = .ok p := by rfl
  obtain ⟨c, -, hunique, hrun⟩ := run_eq_walk hc
  obtain rfl : b = c := hunique b (by rfl)
  exact ⟨hc, hrun⟩

end Program

end Tapecraft
