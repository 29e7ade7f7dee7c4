import Mathlib
import Tapecraft.Proofs.Machine.Visited

/-! # The machine on a plain tape

A second machine executes the same instructions on a tape that is a function from all addresses to
residues modulo 256, and it keeps the set of addresses at which an instruction used its cell apart
from what the cells hold. Inputs come as a sequence with one residue for each read. What an
instruction does is said for each part of the state by itself. The machine that stores only the
touched cells goes through the same states and gives the same result.
-/
namespace Tapecraft

/-- The value that the `k`-th read gives, counted from zero; none if there are no inputs. The
inputs are taken in order and from the start again when they are used up. -/
def feed (inputs : Array Int64) (k : ℕ) : Option (ZMod 256) :=
  inputs[k % inputs.size]?.map fun value => (value.toInt : ZMod 256)

namespace Instruction

/-- Whether the instruction looks at the cell under the pointer or changes it. -/
def usesCell : Instruction → Bool
  | move _ => false
  | halt => false
  | _ => true

def displacement : Instruction → Int64
  | move displacement => displacement
  | _ => 0

end Instruction

namespace PlainTape

structure State where
  counter : ℕ := 0
  pointer : Int64 := 0
  cells : Int64 → ZMod 256 := fun _ => 0
  /-- The addresses at which an instruction used its cell. -/
  used : Finset Int64 := ∅
  output : List Char := []
  executed : ℕ := 0
  reads : ℕ := 0

namespace State

def current (s : State) : ZMod 256 := s.cells s.pointer

def jump? (s : State) : Instruction → Option ℕ
  | .jumpIfZero target => if s.current = 0 then some target else none
  | .jumpIfNonzero target => if s.current = 0 then none else some target
  | _ => none

def left (source : ℕ → Option (ZMod 256)) (s : State) : Instruction → ZMod 256
  | .add delta => s.current + delta.toInt
  | .read => (source s.reads).getD s.current
  | _ => s.current

theorem left_add (source : ℕ → Option (ZMod 256)) (s : State) (delta : Int8) :
    s.left source (.add delta) = s.current + (delta.toInt : ZMod 256) := rfl

theorem left_read (source : ℕ → Option (ZMod 256)) (s : State) :
    s.left source .read = (source s.reads).getD s.current := rfl

/-- The state behind an instruction. -/
def after (source : ℕ → Option (ZMod 256)) (s : State) (i : Instruction) : State where
  counter := (s.jump? i).getD (s.counter + 1)
  pointer := s.pointer + i.displacement
  cells := Function.update s.cells s.pointer (s.left source i)
  used := if i.usesCell then insert s.pointer s.used else s.used
  output := if i = .print then s.output ++ [Char.ofNat s.current.val] else s.output
  executed := s.executed + 1
  reads := if i = .read then s.reads + 1 else s.reads

def outcome (s : State) : Outcome := ⟨String.ofList s.output, s.executed, s.used.card⟩

end State

/-- The state that a run without ceilings is in behind a number of instructions. -/
def stateAt (code : Array Instruction) (source : ℕ → Option (ZMod 256)) : ℕ → State
  | 0 => {}
  | n + 1 =>
    let s := stateAt code source n
    match code[s.counter]? with
    | none => s
    | some i => s.after source i

def runFrom (code : Array Instruction) (source : ℕ → Option (ZMod 256)) (limits : Limits) :
    ℕ → State → Except Fault Outcome
  | 0, s =>
    if code[s.counter]? = none then .ok s.outcome
    else .error (.exceeded .instructions limits.instructions)
  | budget + 1, s =>
    match code[s.counter]? with
    | none => .ok s.outcome
    | some i =>
      if i = .read ∧ source s.reads = none then .error (.missingInput s.counter)
      else if i = .halt then .ok (s.after source i).outcome
      else if s.jump? i = none ∧ limits.cells < (s.after source i).used.card then
        .error (.exceeded .cells limits.cells)
      else runFrom code source limits budget (s.after source i)

def run (code : Array Instruction) (source : ℕ → Option (ZMod 256)) (limits : Limits) :
    Except Fault Outcome :=
  runFrom code source limits limits.instructions {}

/-! ## Bytes as residues -/

theorem intCast_toInt {w : ℕ} (h : 8 ≤ w) (x : BitVec w) :
    (x.toInt : ZMod 256) = (x.toNat : ZMod 256) := by
  rw [BitVec.toInt_eq_toNat_cond]
  split
  · exact Int.cast_natCast _
  · have hzero : ((2 ^ w : ℕ) : ZMod 256) = 0 :=
      (ZMod.natCast_eq_zero_iff _ _).mpr (pow_dvd_pow 2 h)
    rw [Int.cast_sub, Int.cast_natCast, Int.cast_natCast, hzero, sub_zero]

theorem natCast_add_delta (c : UInt8) (delta : Int8) :
    ((c + delta.toUInt8).toNat : ZMod 256) = c.toNat + (delta.toInt : ZMod 256) := by
  have hdelta : (delta.toInt : ZMod 256) = delta.toUInt8.toNat :=
    intCast_toInt le_rfl delta.toBitVec
  rw [hdelta, UInt8.toNat_add, show 2 ^ 8 = 256 from rfl, ZMod.natCast_mod, Nat.cast_add]

theorem natCast_lowByte (value : Int64) :
    (value.toUInt64.toUInt8.toNat : ZMod 256) = (value.toInt : ZMod 256) := by
  have hvalue : (value.toInt : ZMod 256) = value.toUInt64.toNat :=
    intCast_toInt (by decide) value.toBitVec
  rw [hvalue, UInt64.toNat_toUInt8, show 2 ^ 8 = 256 from rfl, ZMod.natCast_mod]

theorem natCast_eq_zero_iff (c : UInt8) : (c.toNat : ZMod 256) = 0 ↔ c = 0 := by
  rw [ZMod.natCast_eq_zero_iff, ← UInt8.toNat_inj]
  have hlt : c.toNat < 256 := c.toNat_lt
  change 256 ∣ c.toNat ↔ c.toNat = 0
  omega

theorem ofNat_val (c : UInt8) : Char.ofNat (c.toNat : ZMod 256).val = Char.ofUInt8 c := by
  rw [ZMod.val_natCast_of_lt c.toNat_lt]
  exact Char.ofNat_toNat (Char.ofUInt8 c)

/-! ## The simulation -/

variable {code : Array Instruction} {inputs : Array Int64} {limits : Limits}

structure Shows (inputs : Array Int64) (t : State) (s : Machine.State) : Prop where
  counter : t.counter = s.counter
  pointer : t.pointer = s.pointer
  cells : ∀ a, t.cells a = (s.tape.cell a).toNat
  used : ∀ a, a ∈ t.used ↔ s.tape.isTouched a = true
  output : t.output = s.output.toList
  executed : t.executed = s.executed
  reads : t.reads % inputs.size = s.nextInput

namespace Shows
variable {t : State} {s u : Machine.State} {i : Instruction}

theorem blank (inputs : Array Int64) : Shows inputs {} {} where
  counter := rfl
  pointer := rfl
  cells a := by simp
  used a := by simp
  output := rfl
  executed := rfl
  reads := Nat.zero_mod _

theorem current (h : Shows inputs t s) : t.current = s.current.toNat := by
  rw [State.current, h.pointer, h.cells]
  rfl

theorem current_eq_zero_iff (h : Shows inputs t s) : t.current = 0 ↔ s.current = 0 := by
  rw [h.current, natCast_eq_zero_iff]

theorem feed_eq (h : Shows inputs t s) :
    feed inputs t.reads = inputs[s.nextInput]?.map fun value => (value.toInt : ZMod 256) := by
  rw [feed, h.reads]

theorem touched (h : Shows inputs t s) : s.tape.touched = t.used.card := by
  have hused : t.used = s.tape.touchedCells := by
    ext a
    rw [h.used, Tape.mem_touchedCells]
  rw [hused, Tape.card_touchedCells]

theorem outcome (h : Shows inputs t s) : t.outcome = s.outcome := by
  rw [State.outcome, h.output, h.executed, ← h.touched, String.ofList_toList]
  rfl

theorem cells_kept (h : Shows inputs t s) (a : Int64) :
    Function.update t.cells t.pointer t.current a = (s.tape.cell a).toNat := by
  rw [State.current, Function.update_eq_self, h.cells]

theorem cells_write (h : Shows inputs t s) {x : ZMod 256} {value : UInt8}
    (hx : x = value.toNat) (a : Int64) :
    Function.update t.cells t.pointer x a = ((s.tape.write s.pointer value).cell a).toNat := by
  rw [h.pointer, Tape.cell_write, Function.update_apply]
  by_cases ha : a = s.pointer
  · rw [if_pos ha, if_pos ha.symm, hx]
  · rw [if_neg ha, if_neg (Ne.symm ha), h.cells]

theorem mem_insert_iff (h : Shows inputs t s) {tape : Tape} {a : Int64}
    (ht : tape.isTouched a = (s.pointer == a || s.tape.isTouched a)) :
    a ∈ insert t.pointer t.used ↔ tape.isTouched a = true := by
  rw [ht, Finset.mem_insert, h.used, h.pointer, Bool.or_eq_true, beq_iff_eq, eq_comm]

theorem after (h : Shows inputs t s) (hu : (Machine.execute inputs i s).onward? = some u) :
    Shows inputs (t.after (feed inputs) i) u := by
  have hexecuted : t.executed + 1 = s.executed + 1 := by rw [h.executed]
  have hbehind : t.counter + 1 = s.counter + 1 := by rw [h.counter]
  have hpointer : t.pointer + 0 = s.pointer := by rw [h.pointer, Int64.add_zero]
  have hlook (a : Int64) :
      a ∈ insert t.pointer t.used ↔ (s.tape.touch s.pointer).isTouched a = true :=
    h.mem_insert_iff (Tape.isTouched_touch ..)
  have hstore (value : UInt8) (a : Int64) :
      a ∈ insert t.pointer t.used ↔ (s.tape.write s.pointer value).isTouched a = true :=
    h.mem_insert_iff (Tape.isTouched_write ..)
  have hcells (a : Int64) : Function.update t.cells t.pointer t.current a =
      ((s.tape.touch s.pointer).cell a).toNat := by rw [Tape.cell_touch, h.cells_kept]
  rcases Machine.onward_cases hu with ⟨d, rfl, rfl⟩ | ⟨d, rfl, rfl⟩ | ⟨rfl, rfl⟩ |
    ⟨value, rfl, hvalue, rfl⟩ | ⟨target, rfl, rfl⟩ | ⟨target, rfl, rfl⟩
  · exact ⟨hbehind, congrArg (· + d) h.pointer, h.cells_kept, h.used, h.output, hexecuted,
      h.reads⟩
  · have hleft : t.left (feed inputs) (.add d) = (s.current + d.toUInt8).toNat := by
      rw [State.left_add, h.current, natCast_add_delta]
    exact ⟨hbehind, hpointer, h.cells_write hleft, hstore _, h.output, hexecuted, h.reads⟩
  · refine ⟨hbehind, hpointer, hcells, hlook, ?_, hexecuted, h.reads⟩
    change t.output ++ [Char.ofNat t.current.val] = (s.output.push (.ofUInt8 s.current)).toList
    rw [String.toList_push, h.output, h.current, ofNat_val]
  · have hleft : t.left (feed inputs) .read = value.toUInt64.toUInt8.toNat := by
      rw [State.left_read, h.feed_eq, hvalue, Option.map_some, Option.getD_some,
        natCast_lowByte]
    have hreads : (t.reads + 1) % inputs.size = (s.nextInput + 1) % inputs.size := by
      rw [← h.reads, Nat.mod_add_mod]
    exact ⟨hbehind, hpointer, h.cells_write hleft, hstore _, h.output, hexecuted, hreads⟩
  · refine ⟨?_, hpointer, hcells, hlook, h.output, hexecuted, h.reads⟩
    by_cases hz : s.current = 0
    · simp only [State.after, State.jump?, if_pos (h.current_eq_zero_iff.mpr hz), if_pos hz]
      rfl
    · simp only [State.after, State.jump?, if_neg (h.current_eq_zero_iff.not.mpr hz), if_neg hz]
      exact hbehind
  · refine ⟨?_, hpointer, hcells, hlook, h.output, hexecuted, h.reads⟩
    by_cases hz : s.current = 0
    · simp only [State.after, State.jump?, if_pos (h.current_eq_zero_iff.mpr hz), if_pos hz]
      exact hbehind
    · simp only [State.after, State.jump?, if_neg (h.current_eq_zero_iff.not.mpr hz), if_neg hz]
      rfl

theorem jump_iff (h : Shows inputs t s) (i : Instruction) :
    (∃ v, Machine.execute inputs i s = .jump v) ↔ (t.jump? i).isSome := by
  cases i with
  | read => cases hr : inputs[s.nextInput]? <;> simp [Machine.execute, State.jump?, hr]
  | jumpIfZero target =>
    by_cases hz : s.current = 0 <;>
      simp [Machine.execute, State.jump?, h.current_eq_zero_iff, hz]
  | jumpIfNonzero target =>
    by_cases hz : s.current = 0 <;>
      simp [Machine.execute, State.jump?, h.current_eq_zero_iff, hz]
  | _ => simp [Machine.execute, State.jump?]

theorem fed_of_onward (h : Shows inputs t s)
    (hu : (Machine.execute inputs i s).onward? = some u) :
    ¬ (i = .read ∧ feed inputs t.reads = none) ∧ i ≠ .halt := by
  constructor
  · rintro ⟨rfl, hnone⟩
    rw [h.feed_eq, Option.map_eq_none_iff] at hnone
    simp [Machine.execute, hnone, Machine.Effect.onward?] at hu
  · rintro rfl
    cases hu

theorem outcome_halt (h : Shows inputs t s) :
    (t.after (feed inputs) .halt).outcome = (s.goTo s.counter).outcome := by
  change (⟨String.ofList t.output, t.executed + 1, t.used.card⟩ : Outcome) =
    ⟨s.output, s.executed + 1, s.tape.touched⟩
  rw [h.output, h.executed, ← h.touched, String.ofList_toList]

theorem runFrom_eq (h : Shows inputs t s) (budget : ℕ) :
    Machine.runFrom code inputs limits budget s =
      runFrom code (feed inputs) limits budget t := by
  induction budget generalizing s t with
  | zero =>
    rw [runFrom, h.counter]
    cases hi : code[s.counter]? with
    | none => rw [Machine.runFrom_of_none hi, if_pos rfl, h.outcome]
    | some i => rw [Machine.runFrom_zero hi, if_neg (by simp)]
  | succ budget ih =>
    rw [runFrom, h.counter]
    cases hi : code[s.counter]? with
    | none => rw [Machine.runFrom_of_none hi, h.outcome]
    | some i =>
      rw [Machine.runFrom_succ hi]
      rcases Machine.execute_cases inputs i s with
        ⟨u, he⟩ | ⟨target, he, -⟩ | ⟨rfl, he⟩ | ⟨rfl, hr, he⟩
      · have hu : (Machine.execute inputs i s).onward? = some u := by
          rw [he]
          rfl
        obtain ⟨hfed, hhalt⟩ := h.fed_of_onward hu
        have hjump : t.jump? i = none := by
          rw [← Option.not_isSome_iff_eq_none, ← h.jump_iff i, he]
          simp
        have hafter := h.after hu
        simp only [he, Machine.proceed, if_neg hfed, if_neg hhalt, hjump, true_and,
          hafter.touched, ih hafter]
      · have hu : (Machine.execute inputs i s).onward? = some (s.look.goTo target) := by
          rw [he]
          rfl
        obtain ⟨hfed, hhalt⟩ := h.fed_of_onward hu
        have hjump : t.jump? i ≠ none := by
          rw [← Option.isSome_iff_ne_none, ← h.jump_iff i]
          exact ⟨_, he⟩
        have hafter := h.after hu
        simp only [he, Machine.proceed, if_neg hfed, if_neg hhalt, hjump, false_and, if_false,
          ih hafter]
      · simp only [he, Machine.proceed, reduceCtorEq, false_and, if_false, if_true,
          h.outcome_halt]
      · have hnone : feed inputs t.reads = none := by rw [h.feed_eq, hr]; rfl
        simp only [he, Machine.proceed, hnone, and_self, if_true]

end Shows

/-- A state that a run goes through shows what the plain tape does behind as many instructions. -/
theorem shows_stateAt {a : Machine.Arrival} {s : Machine.State}
    (h : Machine.Visited code inputs limits a s) :
    Shows inputs (stateAt code (feed inputs) s.executed) s := by
  induction h with
  | start => exact Shows.blank inputs
  | @next a i s t _ hi _ ht _ ih =>
    rw [Machine.executed_of_next ht, stateAt, ih.counter, hi]
    exact ih.after (by rw [ht]; rfl)
  | @jump a i s t _ hi _ ht ih =>
    rw [Machine.executed_of_jump ht, stateAt, ih.counter, hi]
    exact ih.after (by rw [ht]; rfl)

end PlainTape

namespace Program
open Machine
variable {p : Program} {inputs : Array Int64} {limits : Limits}

theorem run_eq_plainTape (p : Program) (inputs : Array Int64) (limits : Limits) :
    p.run inputs limits = PlainTape.run p.code (feed inputs) limits :=
  (PlainTape.Shows.blank inputs).runFrom_eq limits.instructions

/-- A run gives the result that the machine on the plain tape gives. At each state it goes through
it stands at the same instruction and the same address, all its cells, its touched cells and its
output are those of the plain machine behind as many instructions, it counts as many cells as
there are addresses at which one was used, and it takes the same jumps. -/
theorem refines_plainTape (p : Program) (inputs : Array Int64) (limits : Limits) :
    p.run inputs limits = PlainTape.run p.code (feed inputs) limits ∧
    ∀ a s, Visited p.code inputs limits a s →
      let t := PlainTape.stateAt p.code (feed inputs) s.executed
      PlainTape.Shows inputs t s ∧ s.tape.touched = t.used.card ∧
        ∀ i, (∃ u, execute inputs i s = .jump u) ↔ (t.jump? i).isSome := by
  refine ⟨run_eq_plainTape p inputs limits, ?_⟩
  intro a s hs t
  have hshows : PlainTape.Shows inputs t s := PlainTape.shows_stateAt hs
  exact ⟨hshows, hshows.touched, hshows.jump_iff⟩

theorem refines_plainTape_unwritten :
    let p : Program := ofInstructions #[.add (-1), .print, .move (-1), .jumpIfZero 5, .halt, .read,
      .print]
    let s : State := (State.store {} (State.current {} + (-1 : Int8).toUInt8)).goTo 1
    p.run #[321] ⟨10, 2⟩ = .ok ⟨"ÿA", 6, 2⟩ ∧ Visited p.code #[321] ⟨10, 2⟩ .next s ∧
      s.tape.touched = (PlainTape.stateAt p.code (feed #[321]) 1).used.card := by
  intro p s
  have hplain : PlainTape.run p.code (feed #[321]) ⟨10, 2⟩ = .ok ⟨"ÿA", 6, 2⟩ := by decide +kernel
  have hcells : s.tape.touched ≤ 2 := by
    simp [s, State.goTo, State.store, Tape.touched_write]
  have hs : Visited p.code #[321] ⟨10, 2⟩ .next s :=
    Visited.start.next (i := .add (-1)) rfl (by decide) rfl hcells
  obtain ⟨hrun, hvisited⟩ := refines_plainTape p #[321] ⟨10, 2⟩
  exact ⟨hrun.trans hplain, hs, (hvisited .next s hs).2.1⟩

end Program

end Tapecraft
