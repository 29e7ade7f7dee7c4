import Mathlib
import Tapecraft.Proofs.Machine.Visited
import Tapecraft.Proofs.Program.Composition
import Tapecraft.Proofs.Program.Walk

/-! # The run of a text and of its extensions

A text that compiles and has another one behind it runs as it does alone until it comes to its
end, and then the other one goes on from there. What was printed stays printed and the counts do
not fall, so the outcome of the whole begins with the outcome of the first part.
-/
namespace Tapecraft

/-- What one run has printed, executed and touched, another one that goes on has too. -/
structure Outcome.IsStartOf (o r : Outcome) : Prop where
  output : o.output.toList <+: r.output.toList
  executed : o.executed ≤ r.executed
  touched : o.touched ≤ r.touched

namespace Outcome.IsStartOf

theorem refl (o : Outcome) : o.IsStartOf o := ⟨List.prefix_rfl, le_rfl, le_rfl⟩

theorem trans {o q r : Outcome} (h : o.IsStartOf q) (h' : q.IsStartOf r) : o.IsStartOf r :=
  ⟨h.output.trans h'.output, h.executed.trans h'.executed, h.touched.trans h'.touched⟩

end Outcome.IsStartOf

namespace Machine
variable {code : Array Instruction} {inputs : Array Int64} {limits : Limits}

theorem output_of_onward {i : Instruction} {s t : State}
    (h : (execute inputs i s).onward? = some t) : s.output.toList <+: t.output.toList := by
  rcases onward_cases h with ⟨d, -, rfl⟩ | ⟨d, -, rfl⟩ | ⟨-, rfl⟩ | ⟨value, -, -, rfl⟩ |
    ⟨target, -, rfl⟩ | ⟨target, -, rfl⟩
  · exact List.prefix_rfl
  · exact List.prefix_rfl
  · change s.output.toList <+: (s.output.push (.ofUInt8 s.current)).toList
    rw [String.toList_push]
    exact List.prefix_append _ _
  · exact List.prefix_rfl
  · exact List.prefix_rfl
  · exact List.prefix_rfl

theorem isStartOf_of_onward {i : Instruction} {s t : State}
    (h : (execute inputs i s).onward? = some t) : s.outcome.IsStartOf t.outcome := by
  have hexecuted : t.executed = s.executed + 1 := (onward_spec h).1
  refine ⟨output_of_onward h, ?_, touched_of_onward h⟩
  change s.executed ≤ t.executed
  omega

theorem isStartOf_of_runFrom {budget : ℕ} {s : State} {o : Outcome}
    (h : runFrom code inputs limits budget s = .ok o) : s.outcome.IsStartOf o := by
  induction budget generalizing s with
  | zero =>
    cases hi : code[s.counter]? with
    | none =>
      cases (runFrom_of_none hi _).symm.trans h
      exact .refl _
    | some i => cases (runFrom_zero hi).symm.trans h
  | succ budget ih =>
    cases hi : code[s.counter]? with
    | none =>
      cases (runFrom_of_none hi _).symm.trans h
      exact .refl _
    | some i =>
      rw [runFrom_succ hi] at h
      rcases execute_cases inputs i s with ⟨t, he⟩ | ⟨target, he, -⟩ | ⟨-, he⟩ | ⟨-, -, he⟩
      · rw [he, proceed] at h
        split at h
        · cases h
        · exact (isStartOf_of_onward (by rw [he]; rfl)).trans (ih h)
      · rw [he, proceed] at h
        exact (isStartOf_of_onward (by rw [he]; rfl)).trans (ih h)
      · rw [he, proceed] at h
        cases h
        exact ⟨List.prefix_rfl, Nat.le_succ _, le_rfl⟩
      · rw [he, proceed] at h
        cases h

end Machine

namespace Block
open Machine
variable {inputs : Array Int64} {limits : Limits}

theorem isStartOf_of_resume {code : Array Instruction} {counter : ℕ} {s : State} {o : Outcome}
    (h : resume code inputs limits counter s = .ok o) : s.outcome.IsStartOf o :=
  isStartOf_of_runFrom (s := { s with counter := counter }) h

/-- The machine walks the first block and then goes on at the second with what is left. -/
theorem run_append_code (a b : Block) (source : String) :
    Program.run ⟨source, ((a.append b).code 0).toArray⟩ inputs limits =
      (walk inputs limits a 0 {}).bind
        (resume ((a.append b).code 0).toArray inputs limits (0 + a.size)) := by
  have hholds := holds_code_append.mp (holds_self ((a.append b).code 0))
  exact resume_block a hholds.1 {}

end Block

namespace Program
open Machine

/-- With another text behind it that compiles as well, a text faults as it does alone; and if the
whole has an outcome, the text alone has one, with which the outcome of the whole begins. -/
theorem run_of_extension {a b : String} {p q : Program} (ha : compile a = .ok p)
    (hb : compile b = .ok q) :
    ∃ whole, compile (a ++ b) = .ok whole ∧ ∀ (inputs : Array Int64) (limits : Limits),
      (∀ fault, p.run inputs limits = .error fault → whole.run inputs limits = .error fault) ∧
      ∀ r, whole.run inputs limits = .ok r →
        ∃ o, p.run inputs limits = .ok o ∧ o.output.toList <+: r.output.toList ∧
          o.executed ≤ r.executed ∧ o.touched ≤ r.touched := by
  obtain ⟨x, hx, rfl⟩ := compile_eq_ok_iff.mp ha
  obtain ⟨y, hy, rfl⟩ := compile_eq_ok_iff.mp hb
  have hcommands := Block.commands_append_eq_ofText hx hy
  refine ⟨_, compile_eq_ok_iff.mpr ⟨x.append y, hcommands, rfl⟩, ?_⟩
  intro inputs limits
  rw [Block.run_append_code, Block.run_code, Block.run]
  cases hw : Block.walk inputs limits x 0 {} with
  | error fault =>
    constructor
    · intro fault' h
      exact h
    · intro r h
      cases h
  | ok s =>
    constructor
    · intro fault h
      cases h
    · intro r h
      have hstart := Block.isStartOf_of_resume h
      exact ⟨s.outcome, rfl, hstart.output, hstart.executed, hstart.touched⟩

theorem run_of_extension_print :
    let p : Program := ⟨"+.", #[.add 1, .print]⟩
    let whole : Program := ⟨"+.<.", #[.add 1, .print, .move (-1), .print]⟩
    compile ("+." ++ "<.") = .ok whole ∧
      p.run #[] ⟨1, 2⟩ = .error (.exceeded .instructions 1) ∧
      whole.run #[] ⟨1, 2⟩ = .error (.exceeded .instructions 1) ∧
      whole.run #[] ⟨4, 2⟩ = .ok ⟨"\x01\x00", 4, 2⟩ ∧
      ∃ o, p.run #[] ⟨4, 2⟩ = .ok o ∧ o.output.toList <+: ['\x01', '\x00'] ∧ o.executed ≤ 4 := by
  intro p whole
  have hone : (1 : Int8).toUInt8 = 1 := by decide
  have hprinted : (String.singleton (.ofUInt8 1)).push (.ofUInt8 0) = "\x01\x00" := by rfl
  have hcut : p.run #[] ⟨1, 2⟩ = .error (.exceeded .instructions 1) := by
    simp [p, Program.run, runFrom, execute, State.goTo, State.store, Tape.touched_write]
  have hrun : whole.run #[] ⟨4, 2⟩ = .ok ⟨"\x01\x00", 4, 2⟩ := by
    simp [whole, Program.run, runFrom, execute, State.goTo, State.store, State.look, State.emit,
      State.current, State.outcome, Tape.touched_write, Tape.touched_touch, Tape.isTouched_write,
      Tape.isTouched_touch, Tape.cell_write, hone, hprinted]
  have ha : compile "+." = .ok p := by rfl
  have hb : compile "<." = .ok ⟨"<.", #[.move (-1), .print]⟩ := by rfl
  obtain ⟨w, hw, hruns⟩ := run_of_extension ha hb
  obtain rfl : w = whole := Except.ok.inj (hw.symm.trans (by rfl))
  obtain ⟨hfault, -⟩ := hruns #[] ⟨1, 2⟩
  obtain ⟨o, ho, hprefix, hexecuted, -⟩ := (hruns #[] ⟨4, 2⟩).2 _ hrun
  exact ⟨hw, hcut, hfault _ hcut, hrun, o, ho, hprefix, hexecuted⟩

end Program

end Tapecraft
