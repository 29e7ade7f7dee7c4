import Mathlib
import Tapecraft.Program.Block

/-! # Where the commands of a block lie in compiled code

Accepted text is exactly the text whose commands are those of a block, and the block is
determined by them. The instructions compiled from a block are given directly, with the
targets of its jumps computed from its size; the scan with its stack of open loops and its
filled-in targets is proved to emit just these.
-/
namespace Tapecraft

namespace Instruction

def shift (offset : ℕ) : Instruction → Instruction
  | move displacement => move displacement
  | add delta => add delta
  | print => print
  | read => read
  | jumpIfZero target => jumpIfZero (offset + target)
  | jumpIfNonzero target => jumpIfNonzero (offset + target)
  | halt => halt

end Instruction

def Holds (code : Array Instruction) : ℕ → List Instruction → Prop
  | _, [] => True
  | start, i :: rest => code[start]? = some i ∧ Holds code (start + 1) rest

theorem holds_append {code : Array Instruction} {start : ℕ} {a b : List Instruction} :
    Holds code start (a ++ b) ↔ Holds code start a ∧ Holds code (start + a.length) b := by
  induction a generalizing start with
  | nil => simp [Holds]
  | cons i a ih =>
    simp only [List.cons_append, Holds, ih, List.length_cons, and_assoc]
    rw [show start + 1 + a.length = start + (a.length + 1) by omega]

theorem Holds.getElem? {code : Array Instruction} {start : ℕ} {a : List Instruction}
    (h : Holds code start a) {k : ℕ} {i : Instruction} (hi : a[k]? = some i) :
    code[start + k]? = some i := by
  induction a generalizing start k with
  | nil => simp at hi
  | cons j a ih =>
    cases k with
    | zero =>
      simp only [List.getElem?_cons_zero, Option.some.injEq] at hi
      exact hi ▸ h.1
    | succ k =>
      have hk := ih h.2 (by simpa using hi)
      rwa [show start + 1 + k = start + (k + 1) by omega] at hk

theorem holds_toArray (a b : List Instruction) : Holds (a ++ b).toArray a.length b := by
  induction b generalizing a with
  | nil => trivial
  | cons i b ih =>
    refine ⟨by simp, ?_⟩
    simpa using ih (a ++ [i])

theorem holds_self (a : List Instruction) : Holds a.toArray 0 a := holds_toArray [] a

namespace Block

def code : Block → ℕ → List Instruction
  | done, _ => []
  | act a rest, start => a.instruction :: rest.code (start + 1)
  | loop body rest, start =>
    .jumpIfZero (start + body.size + 2) :: (body.code (start + 1) ++
      .jumpIfNonzero (start + 1) :: rest.code (start + body.size + 2))

@[simp] theorem length_code (b : Block) (start : ℕ) : (b.code start).length = b.size := by
  induction b generalizing start with
  | done => rfl
  | act a rest ih => simp [code, size, ih]
  | loop body rest ihb ihr =>
    simp only [code, size, List.length_cons, List.length_append, ihb, ihr]
    omega

theorem map_shift_code (b : Block) (offset start : ℕ) :
    (b.code start).map (Instruction.shift offset) = b.code (offset + start) := by
  induction b generalizing start with
  | done => rfl
  | act a rest ih =>
    have ha : a.instruction.shift offset = a.instruction := by cases a <;> rfl
    simp only [code, List.map_cons, ih, ha, Nat.add_assoc]
  | loop body rest ihb ihr =>
    simp only [code, List.map_cons, List.map_append, ihb, ihr, Instruction.shift, Nat.add_assoc]

def append : Block → Block → Block
  | done, b => b
  | act a rest, b => act a (rest.append b)
  | loop body rest, b => loop body (rest.append b)

@[simp] theorem commands_append (a b : Block) :
    (a.append b).commands = a.commands ++ b.commands := by
  induction a with
  | done => rfl
  | act c rest ih => simp [append, commands, ih]
  | loop body rest _ ih => simp [append, commands, ih]

@[simp] theorem size_append (a b : Block) : (a.append b).size = a.size + b.size := by
  rw [← length_commands, commands_append, List.length_append, length_commands, length_commands]

theorem code_append (a b : Block) (start : ℕ) :
    (a.append b).code start = a.code start ++ b.code (start + a.size) := by
  induction a generalizing start with
  | done => rfl
  | act c rest ih =>
    simp only [append, code, size, ih, List.cons_append]
    rw [show start + 1 + rest.size = start + (rest.size + 1) by omega]
  | loop body rest _ ih =>
    simp only [append, code, size, ih, List.cons_append, List.append_assoc]
    rw [show start + body.size + 2 + rest.size = start + (body.size + rest.size + 2) by omega]

theorem holds_code_append {code : Array Instruction} {a b : Block} {start : ℕ} :
    Holds code start ((a.append b).code start) ↔
      Holds code start (a.code start) ∧ Holds code (start + a.size) (b.code (start + a.size)) := by
  rw [code_append, holds_append, length_code]

/-- A list of commands that does not go on inside the block before it: it is empty or starts
with a closing bracket. -/
def Closed : List Command → Prop
  | [] => True
  | c :: _ => c = .closeLoop

theorem not_closed_act (a : Action) (rest : Block) (u : List Command) :
    ¬ Closed ((act a rest).commands ++ u) := by
  simp [commands, Closed]

theorem not_closed_loop (body rest : Block) (u : List Command) :
    ¬ Closed ((loop body rest).commands ++ u) := by
  simp [commands, Closed]

/-- The commands of a block tell where it ends, as nothing behind it can belong to it. -/
theorem commands_append_inj {a b : Block} {u v : List Command} (hu : Closed u) (hv : Closed v)
    (h : a.commands ++ u = b.commands ++ v) : a = b ∧ u = v := by
  induction a generalizing b u v with
  | done =>
    rw [show done.commands ++ u = u from rfl] at h
    cases b with
    | done => exact ⟨rfl, h⟩
    | act c rest => exact absurd (h ▸ hu) (not_closed_act c rest v)
    | loop body rest => exact absurd (h ▸ hu) (not_closed_loop body rest v)
  | act c rest ih =>
    cases b with
    | done => exact absurd (h.symm ▸ hv) (not_closed_act c rest u)
    | act c' rest' =>
      simp only [commands, List.cons_append, List.cons.injEq, Command.action.injEq] at h
      obtain ⟨rfl, h⟩ := h
      obtain ⟨rfl, rfl⟩ := ih hu hv h
      exact ⟨rfl, rfl⟩
    | loop body rest' => simp [commands] at h
  | loop body rest ihb ihr =>
    cases b with
    | done => exact absurd (h.symm ▸ hv) (not_closed_loop body rest u)
    | act c' rest' => simp [commands] at h
    | loop body' rest' =>
      simp only [commands, List.cons_append, List.append_assoc, List.cons.injEq, true_and] at h
      obtain ⟨rfl, hrest⟩ := ihb (by rfl) (by rfl) h
      obtain ⟨rfl, rfl⟩ := ihr hu hv (List.cons.inj hrest).2
      exact ⟨rfl, rfl⟩

theorem commands_injective {a b : Block} (h : a.commands = b.commands) : a = b :=
  (commands_append_inj (u := []) (v := []) trivial trivial (by simpa using h)).1

end Block

namespace Program
open Command

def Scan.commands (s : Scan) (cs : List Command) : Option Scan := cs.foldlM Scan.command s

@[simp] theorem Scan.commands_nil (s : Scan) : s.commands [] = some s := rfl

@[simp] theorem Scan.commands_cons (s : Scan) (c : Command) (cs : List Command) :
    s.commands (c :: cs) = (s.command c).bind fun t => t.commands cs := rfl

theorem Scan.commands_append (s : Scan) (a b : List Command) :
    s.commands (a ++ b) = (s.commands a).bind fun t => t.commands b := List.foldlM_append

/-- Scanning text succeeds when scanning its commands does, with the same result: comments and
positions play no part. -/
theorem scan_eq_ok_iff {text : List Char} {position : ℕ} {s t : Scan} :
    scan text position s = .ok t ↔ s.commands (ofText text) = some t := by
  induction text generalizing position s with
  | nil => simp [scan, ofText]
  | cons ch text ih =>
    unfold scan
    cases hc : ofChar? ch with
    | none =>
      have ht : ofText (ch :: text) = ofText text := by simp [ofText, hc]
      simp only [ht]
      exact ih
    | some c =>
      have ht : ofText (ch :: text) = c :: ofText text := by simp [ofText, hc]
      cases hs : s.command c with
      | none => simp [ht, hs]
      | some u =>
        simp only [ht, hs, Scan.commands_cons, Option.bind_some]
        exact ih

theorem Scan.command_closeLoop (front body : List Instruction) (outer : List ℕ) :
    Scan.command ⟨(front ++ Instruction.jumpIfZero 0 :: body).toArray, front.length :: outer⟩
      .closeLoop =
      some ⟨(front ++ Instruction.jumpIfZero (front.length + body.length + 2) ::
        (body ++ [Instruction.jumpIfNonzero (front.length + 1)])).toArray, outer⟩ := by
  simp [Scan.command, Nat.add_assoc]

/-- Scanning the commands of a block emits its instructions and leaves the loops that were open
before it as they were. -/
theorem Scan.commands_block (b : Block) (front : List Instruction) (outer : List ℕ) :
    Scan.commands ⟨front.toArray, outer⟩ b.commands =
      some ⟨(front ++ b.code front.length).toArray, outer⟩ := by
  induction b generalizing front outer with
  | done => simp [Block.commands, Block.code]
  | act a rest ih =>
    have hstep : Scan.command ⟨front.toArray, outer⟩ (.action a) =
        some ⟨(front ++ [a.instruction]).toArray, outer⟩ := by simp [Scan.command]
    simp only [Block.commands, Scan.commands_cons, hstep, Option.bind_some, ih]
    simp [Block.code]
  | loop body rest ihb ihr =>
    have hopen : Scan.command ⟨front.toArray, outer⟩ .openLoop =
        some ⟨(front ++ [Instruction.jumpIfZero 0]).toArray, front.length :: outer⟩ := by
      simp [Scan.command]
    simp only [Block.commands, List.cons_append, Scan.commands_cons, Scan.commands_append, hopen,
      Option.bind_some, ihb, List.append_assoc, List.nil_append, List.length_append,
      List.length_cons, List.length_nil, Nat.zero_add, Scan.command_closeLoop, ihr,
      Block.length_code, Block.code]
    rw [show front.length + (body.size + 1 + 1) = front.length + body.size + 2 by omega]

def closings (blocks : List Block) : List Command :=
  blocks.flatMap fun b => .closeLoop :: b.commands

/-- Commands that a scan accepts to their end, with no loop left open, are those of a block and
then, for each loop open at the start, its closing bracket and another block. -/
theorem exists_block_of_commands {cs : List Command} {s t : Scan} (h : s.commands cs = some t)
    (ht : t.openLoops = []) :
    ∃ (b : Block) (outer : List Block), outer.length = s.openLoops.length ∧
      cs = b.commands ++ closings outer := by
  induction cs generalizing s with
  | nil =>
    obtain rfl : s = t := by simpa using h
    exact ⟨.done, [], by simp [ht], rfl⟩
  | cons c cs ih =>
    rw [Scan.commands_cons] at h
    cases c with
    | action a =>
      obtain ⟨b, outer, hl, rfl⟩ := ih h
      exact ⟨.act a b, outer, hl, rfl⟩
    | openLoop =>
      obtain ⟨b, outer, hl, rfl⟩ := ih h
      cases outer with
      | nil => simp at hl
      | cons rest outer =>
        exact ⟨.loop b rest, outer, by simpa using hl, by simp [closings, Block.commands]⟩
    | closeLoop =>
      obtain ⟨code, openLoops⟩ := s
      cases openLoops with
      | nil => simp [Scan.command] at h
      | cons start openLoops =>
        obtain ⟨b, outer, hl, rfl⟩ := ih h
        exact ⟨.done, b :: outer, by simpa using hl, by simp [closings, Block.commands]⟩

/-- Text compiles exactly when its commands are those of a block, and then to the instructions
of that block. -/
theorem compile_eq_ok_iff {source : String} {p : Program} :
    compile source = .ok p ↔
      ∃ b : Block, b.commands = ofText source.toList ∧ p = ⟨source, (b.code 0).toArray⟩ := by
  have hblock (b : Block) (hb : b.commands = ofText source.toList) :
      scan source.toList 0 {} = .ok ⟨(b.code 0).toArray, []⟩ := by
    rw [scan_eq_ok_iff, ← hb]
    simpa using Scan.commands_block b [] []
  constructor
  · intro h
    cases hs : scan source.toList 0 {} with
    | error e => simp [compile, hs, bind, Except.bind] at h
    | ok t =>
      by_cases ht : t.openLoops = []
      · obtain ⟨b, outer, hl, hb⟩ := exists_block_of_commands (scan_eq_ok_iff.mp hs) ht
        obtain rfl : outer = [] := List.length_eq_zero_iff.mp hl
        have hb' : b.commands = ofText source.toList := by simpa [closings] using hb.symm
        refine ⟨b, hb', ?_⟩
        simp only [compile, hblock b hb', bind, Except.bind] at h
        exact (Except.ok.inj h).symm
      · simp [compile, hs, bind, Except.bind, ht, throw, throwThe, MonadExceptOf.throw] at h
  · rintro ⟨b, hb, rfl⟩
    simp only [compile, hblock b hb, bind, Except.bind]
    rfl

end Program

end Tapecraft
