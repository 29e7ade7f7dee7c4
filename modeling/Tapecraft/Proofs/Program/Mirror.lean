import Mathlib
import Tapecraft.Proofs.Machine.PlainTape

/-! # Left and right

The tape has no edge and no direction. If every move goes the other way, each instruction does at
the negated address what it did before, so a run prints the same, counts the same and touches as
many cells. Negation of addresses wraps like the addresses themselves do. In program text the two
moves are exchanged character by character, which leaves the brackets where they are.
-/
namespace Tapecraft

namespace Instruction

def mirror : Instruction → Instruction
  | move displacement => move (-displacement)
  | add delta => add delta
  | print => print
  | read => read
  | jumpIfZero target => jumpIfZero target
  | jumpIfNonzero target => jumpIfNonzero target
  | halt => halt

@[simp] theorem displacement_mirror (i : Instruction) :
    i.mirror.displacement = -i.displacement := by
  cases i with
  | move displacement => rfl
  | _ => exact Int64.neg_zero.symm

@[simp] theorem usesCell_mirror (i : Instruction) : i.mirror.usesCell = i.usesCell := by
  cases i <;> rfl

@[simp] theorem mirror_mirror (i : Instruction) : i.mirror.mirror = i := by
  cases i with
  | move displacement => exact congrArg move Int64.neg_neg
  | _ => rfl

/-- An instruction without a direction is not mistaken for another one. -/
theorem mirror_eq_iff {i j : Instruction} (h : j.mirror = j) : i.mirror = j ↔ i = j := by
  constructor
  · rintro rfl
    rw [← h, mirror_mirror]
  · rintro rfl
    exact h

end Instruction

namespace PlainTape

theorem neg_injective : Function.Injective fun a : Int64 => -a :=
  Function.Involutive.injective fun _ => Int64.neg_neg

namespace State
variable {source : ℕ → Option (ZMod 256)}

def mirror (s : State) : State :=
  { s with
    pointer := -s.pointer
    cells := fun a => s.cells (-a)
    used := s.used.image fun a => -a }

@[simp] theorem current_mirror (s : State) : s.mirror.current = s.current := by
  change s.cells (- -s.pointer) = s.cells s.pointer
  rw [Int64.neg_neg]

@[simp] theorem card_used_mirror (s : State) : s.mirror.used.card = s.used.card :=
  Finset.card_image_of_injective _ neg_injective

@[simp] theorem outcome_mirror (s : State) : s.mirror.outcome = s.outcome := by
  rw [outcome, card_used_mirror]
  rfl

@[simp] theorem jump?_mirror (s : State) (i : Instruction) :
    s.mirror.jump? i.mirror = s.jump? i := by
  cases i <;> simp [Instruction.mirror, jump?]

theorem left_mirror (s : State) (i : Instruction) :
    s.mirror.left source i.mirror = s.left source i := by
  have hcurrent := s.current_mirror
  cases i with
  | add delta => rw [Instruction.mirror, left_add, left_add, hcurrent]
  | read => rw [Instruction.mirror, left_read, left_read, hcurrent]; rfl
  | _ => exact hcurrent

theorem update_mirror (cells : Int64 → ZMod 256) (pointer : Int64) (x : ZMod 256) :
    (Function.update (fun a => cells (-a)) (-pointer) x) =
      fun a => Function.update cells pointer x (-a) := by
  funext a
  by_cases ha : a = -pointer
  · rw [ha, Function.update_self, Int64.neg_neg, Function.update_self]
  · have hne : -a ≠ pointer := by
      rintro rfl
      exact ha Int64.neg_neg.symm
    rw [Function.update_of_ne ha, Function.update_of_ne hne]

/-- Turned around, an instruction does to the tape turned around what it does to the tape. -/
theorem after_mirror (s : State) (i : Instruction) :
    s.mirror.after source i.mirror = (s.after source i).mirror := by
  have hpointer : -s.pointer + -i.displacement = -(s.pointer + i.displacement) := by
    rw [Int64.neg_add, Int64.sub_eq_add_neg]
  have hused : (if i.usesCell then insert (-s.pointer) s.mirror.used else s.mirror.used) =
      (if i.usesCell then insert s.pointer s.used else s.used).image fun a => -a := by
    split
    · exact (Finset.image_insert _ _ _).symm
    · rfl
  have hprint : i.mirror = .print ↔ i = .print := Instruction.mirror_eq_iff rfl
  have hread : i.mirror = .read ↔ i = .read := Instruction.mirror_eq_iff rfl
  unfold after
  simp only [jump?_mirror, left_mirror, current_mirror, Instruction.displacement_mirror,
    Instruction.usesCell_mirror, hprint, hread]
  simp only [mirror, mk.injEq, update_mirror, hpointer, true_and, and_true]
  exact hused

end State

variable {source : ℕ → Option (ZMod 256)} {limits : Limits}

/-- From states that mirror each other, the program and its mirror image come to the same result. -/
theorem runFrom_mirror (code : Array Instruction) (budget : ℕ) (s : State) :
    runFrom (code.map Instruction.mirror) source limits budget s.mirror =
      runFrom code source limits budget s := by
  have hcode (t : State) : (code.map Instruction.mirror)[t.mirror.counter]? =
      code[t.counter]?.map Instruction.mirror := Array.getElem?_map
  induction budget generalizing s with
  | zero => simp only [runFrom, hcode, State.outcome_mirror, Option.map_eq_none_iff]
  | succ budget ih =>
    rw [runFrom, runFrom, hcode]
    cases code[s.counter]? with
    | none => exact congrArg Except.ok s.outcome_mirror
    | some i =>
      have hread : i.mirror = .read ↔ i = .read := Instruction.mirror_eq_iff rfl
      have hhalt : i.mirror = .halt ↔ i = .halt := Instruction.mirror_eq_iff rfl
      simp only [Option.map_some, State.after_mirror, State.jump?_mirror, State.outcome_mirror,
        State.card_used_mirror, hread, hhalt, ih]
      rfl

theorem run_mirror (code : Array Instruction) :
    run (code.map Instruction.mirror) source limits = run code source limits :=
  runFrom_mirror code limits.instructions {}

end PlainTape

def Action.mirror : Action → Action
  | right => left
  | left => right
  | increment => increment
  | decrement => decrement
  | print => print
  | read => read

theorem Action.instruction_mirror (a : Action) : a.mirror.instruction = a.instruction.mirror := by
  cases a <;> rfl

namespace Command

def mirror : Command → Command
  | action a => action a.mirror
  | openLoop => openLoop
  | closeLoop => closeLoop

def mirrorChar (ch : Char) : Char :=
  if ch = '<' then '>' else if ch = '>' then '<' else ch

theorem mirrorChar_toChar (c : Command) : mirrorChar c.toChar = c.mirror.toChar := by
  cases c with
  | action a => cases a <;> rfl
  | openLoop => rfl
  | closeLoop => rfl

theorem ofChar?_mirrorChar (ch : Char) : ofChar? (mirrorChar ch) = (ofChar? ch).map mirror := by
  cases hc : ofChar? ch with
  | some c =>
    rw [ofChar?_eq_some_iff.mp hc, mirrorChar_toChar, ofChar?_toChar]
    rfl
  | none =>
    have hleft : ch ≠ '<' := by
      rintro rfl
      cases hc
    have hright : ch ≠ '>' := by
      rintro rfl
      cases hc
    rw [mirrorChar, if_neg hleft, if_neg hright, hc]
    rfl

def mirrorText (text : String) : String := text.map mirrorChar

end Command

namespace Program
open Command

def Scan.mirror (s : Scan) : Scan := { s with code := s.code.map Instruction.mirror }

theorem Scan.command_mirror (s : Scan) (c : Command) :
    s.mirror.command c.mirror = (s.command c).map Scan.mirror := by
  obtain ⟨code, openLoops⟩ := s
  cases c with
  | action a => simp [Scan.command, Scan.mirror, Command.mirror, a.instruction_mirror]
  | openLoop => simp [Scan.command, Scan.mirror, Command.mirror, Instruction.mirror]
  | closeLoop =>
    cases openLoops with
    | nil => rfl
    | cons start outer => simp [Scan.command, Scan.mirror, Command.mirror, Instruction.mirror]

/-- The scan of the mirrored text goes along with the scan of the text and stops with it. -/
theorem scan_mirror (text : List Char) (position : ℕ) (s : Scan) :
    scan (text.map mirrorChar) position s.mirror = (scan text position s).map Scan.mirror := by
  induction text generalizing position s with
  | nil => rfl
  | cons ch text ih =>
    rw [List.map_cons, scan, scan, ofChar?_mirrorChar]
    cases ofChar? ch with
    | none => exact ih (position + 1) s
    | some c =>
      rw [Option.map_some]
      simp only [Scan.command_mirror]
      cases s.command c with
      | none => rfl
      | some t => exact ih (position + 1) t

theorem compile_mirrorText (text : String) :
    compile (mirrorText text) = (compile text).map fun p =>
      ⟨mirrorText text, p.code.map Instruction.mirror⟩ := by
  have hscan : scan (mirrorText text).toList 0 {} = (scan text.toList 0 {}).map Scan.mirror := by
    have hstart : ({} : Scan).mirror = {} := by simp [Scan.mirror]
    rw [mirrorText, String.toList_map, ← scan_mirror, hstart]
  rw [compile, compile, hscan]
  cases scan text.toList 0 {} with
  | error e => rfl
  | ok s =>
    change (if s.openLoops.isEmpty then _ else _) =
      Except.map _ (if s.openLoops.isEmpty then _ else _)
    split <;> rfl

theorem run_mirror {p q : Program} (h : q.code = p.code.map Instruction.mirror)
    (inputs : Array Int64) (limits : Limits) : q.run inputs limits = p.run inputs limits := by
  rw [run_eq_plainTape, run_eq_plainTape, h, PlainTape.run_mirror]

/-- A text and its mirror image have the same error, or they both compile and then give the same
result with all inputs and under all ceilings. A program assembled by hand gives the same result
as well if all its moves are turned around. -/
theorem run_left_right_symmetric :
    (∀ text : String,
      (∃ e, compile text = .error e ∧ compile (mirrorText text) = .error e) ∨
      ∃ p q, compile text = .ok p ∧ compile (mirrorText text) = .ok q ∧
        ∀ inputs limits, q.run inputs limits = p.run inputs limits) ∧
    ∀ (code : Array Instruction) (inputs : Array Int64) (limits : Limits),
      (ofInstructions (code.map Instruction.mirror)).run inputs limits =
        (ofInstructions code).run inputs limits := by
  constructor
  · intro text
    have hmirror := compile_mirrorText text
    cases htext : compile text with
    | error e =>
      rw [htext] at hmirror
      exact Or.inl ⟨e, rfl, hmirror⟩
    | ok p =>
      rw [htext] at hmirror
      exact Or.inr ⟨p, _, rfl, hmirror, run_mirror rfl⟩
  · intro code
    exact run_mirror rfl

/-- The lowest displacement is its own mirror image. -/
example : Instruction.mirror (.move Int64.minValue) = .move Int64.minValue := by decide

end Program

end Tapecraft
