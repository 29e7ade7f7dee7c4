import Mathlib
import Tapecraft.Proofs.Program.Layout

/-! # Runs without ceilings

A run is counted in instructions and confined to a region: each of its instructions is
executed with the pointer at an address of the region, and an instruction looks at or changes
no cell but the one under the pointer. Runs can be put together and moved to another place in
a longer program, which is what compiled text is reasoned about with. A run to the end of the
code decides the result under all ceilings: its own outcome, or a ceiling that was passed. A run
that is longer than its budget passes a ceiling too, whether or not it would come to an end.
-/
namespace Tapecraft

namespace Tape

theorem cell_write_eq_update (t : Tape) (address : Int64) (value : UInt8) :
    (t.write address value).cell = Function.update t.cell address value := by
  funext a
  rw [cell_write, Function.update_apply]
  simp only [eq_comm]

theorem touched_le_touch (t : Tape) (address : Int64) :
    t.touched ≤ (t.touch address).touched := by
  rw [touched_touch]
  split <;> omega

theorem touched_le_write (t : Tape) (address : Int64) (value : UInt8) :
    t.touched ≤ (t.write address value).touched := by
  rw [touched_write]
  split <;> omega

def touchedCells (t : Tape) : Finset Int64 := t.cells.keys.toFinset

@[simp] theorem mem_touchedCells {t : Tape} {address : Int64} :
    address ∈ t.touchedCells ↔ t.isTouched address = true := by
  rw [touchedCells, List.mem_toFinset, Std.HashMap.mem_keys]
  exact Std.HashMap.contains_iff_mem.symm

theorem card_touchedCells (t : Tape) : t.touchedCells.card = t.touched := by
  rw [touchedCells, List.toFinset_card_of_nodup Std.HashMap.nodup_keys]
  exact Std.HashMap.length_keys

end Tape

namespace Machine
variable {code : Array Instruction} {inputs : Array Int64} {region : Set Int64}

def proceed (code : Array Instruction) (inputs : Array Int64) (limits : Limits)
    (budget counter : ℕ) : Effect → Except Fault Outcome
  | .next t =>
    if limits.cells < t.tape.touched then .error (.exceeded .cells limits.cells)
    else runFrom code inputs limits budget t
  | .jump t => runFrom code inputs limits budget t
  | .stop t => .ok t.outcome
  | .noInput => .error (.missingInput counter)

theorem runFrom_of_none {limits : Limits} {s : State} (h : code[s.counter]? = none) (budget : ℕ) :
    runFrom code inputs limits budget s = .ok s.outcome := by
  cases budget <;> simp [runFrom, h]

theorem runFrom_zero {limits : Limits} {s : State} {i : Instruction}
    (hi : code[s.counter]? = some i) :
    runFrom code inputs limits 0 s = .error (.exceeded .instructions limits.instructions) := by
  simp [runFrom, hi]

theorem runFrom_succ {limits : Limits} {s : State} {i : Instruction}
    (hi : code[s.counter]? = some i) (budget : ℕ) :
    runFrom code inputs limits (budget + 1) s =
      proceed code inputs limits budget s.counter (execute inputs i s) := by
  simp only [runFrom, hi]
  cases execute inputs i s <;> rfl

theorem runFrom_of_lt {limits : Limits} {s : State} {i : Instruction}
    (hi : code[s.counter]? = some i) (hb : s.executed < limits.instructions) :
    runFrom code inputs limits (limits.instructions - s.executed) s =
      proceed code inputs limits (limits.instructions - (s.executed + 1)) s.counter
        (execute inputs i s) := by
  have hleft : limits.instructions - s.executed = limits.instructions - (s.executed + 1) + 1 := by
    omega
  rw [hleft]
  exact runFrom_succ hi _

def Effect.onward? : Effect → Option State
  | .next t => some t
  | .jump t => some t
  | .stop _ => none
  | .noInput => none

/-- All that an instruction can do if the run goes on behind it. -/
theorem onward_cases {i : Instruction} {s t : State}
    (h : (execute inputs i s).onward? = some t) :
    (∃ d, i = .move d ∧ t = { s with pointer := s.pointer + d }.goTo (s.counter + 1)) ∨
    (∃ d, i = .add d ∧ t = (s.store (s.current + d.toUInt8)).goTo (s.counter + 1)) ∨
    (i = .print ∧ t = (s.emit (.ofUInt8 s.current)).look.goTo (s.counter + 1)) ∨
    (∃ value, i = .read ∧ inputs[s.nextInput]? = some value ∧
      t = { s.store value.toUInt64.toUInt8 with
        nextInput := (s.nextInput + 1) % inputs.size }.goTo (s.counter + 1)) ∨
    (∃ target, i = .jumpIfZero target ∧
      t = s.look.goTo (if s.current = 0 then target else s.counter + 1)) ∨
    ∃ target, i = .jumpIfNonzero target ∧
      t = s.look.goTo (if s.current = 0 then s.counter + 1 else target) := by
  cases i with
  | move d =>
    cases h
    exact Or.inl ⟨d, rfl, rfl⟩
  | add d =>
    cases h
    exact Or.inr (Or.inl ⟨d, rfl, rfl⟩)
  | print =>
    cases h
    exact Or.inr (Or.inr (Or.inl ⟨rfl, rfl⟩))
  | read =>
    cases hr : inputs[s.nextInput]? with
    | none => simp [execute, hr, Effect.onward?] at h
    | some value =>
      simp only [execute, hr] at h
      cases h
      exact Or.inr (Or.inr (Or.inr (Or.inl ⟨value, rfl, rfl, rfl⟩)))
  | jumpIfZero target =>
    refine Or.inr (Or.inr (Or.inr (Or.inr (Or.inl ⟨target, rfl, ?_⟩))))
    by_cases hz : s.current = 0
    · simp only [execute, if_pos hz] at h ⊢
      cases h
      rfl
    · simp only [execute, if_neg hz] at h ⊢
      cases h
      rfl
  | jumpIfNonzero target =>
    refine Or.inr (Or.inr (Or.inr (Or.inr (Or.inr ⟨target, rfl, ?_⟩))))
    by_cases hz : s.current = 0
    · simp only [execute, if_pos hz] at h ⊢
      cases h
      rfl
    · simp only [execute, if_neg hz] at h ⊢
      cases h
      rfl
  | halt => cases h

/-- An instruction that the run goes on behind is counted, and all it does to the tape it does
under the pointer. -/
theorem onward_spec {i : Instruction} {s t : State}
    (h : (execute inputs i s).onward? = some t) :
    t.executed = s.executed + 1 ∧ (t.tape = s.tape ∨ t.tape = s.tape.touch s.pointer ∨
      ∃ value, t.tape = s.tape.write s.pointer value) := by
  rcases onward_cases h with ⟨d, -, rfl⟩ | ⟨d, -, rfl⟩ | ⟨-, rfl⟩ | ⟨value, -, -, rfl⟩ |
    ⟨target, -, rfl⟩ | ⟨target, -, rfl⟩
  · exact ⟨rfl, Or.inl rfl⟩
  · exact ⟨rfl, Or.inr (Or.inr ⟨_, rfl⟩)⟩
  · exact ⟨rfl, Or.inr (Or.inl rfl)⟩
  · exact ⟨rfl, Or.inr (Or.inr ⟨_, rfl⟩)⟩
  · exact ⟨rfl, Or.inr (Or.inl rfl)⟩
  · exact ⟨rfl, Or.inr (Or.inl rfl)⟩

theorem touched_of_onward {i : Instruction} {s t : State}
    (h : (execute inputs i s).onward? = some t) : s.tape.touched ≤ t.tape.touched := by
  rcases (onward_spec h).2 with hs | hs | ⟨value, hs⟩
  · rw [hs]
  · rw [hs]
    exact Tape.touched_le_touch _ _
  · rw [hs]
    exact Tape.touched_le_write _ _ _

/-- A number of instructions leads from one state to another, and each of them is executed with
the pointer in the region. -/
inductive Run (code : Array Instruction) (inputs : Array Int64) (region : Set Int64) :
    ℕ → State → State → Prop
  | refl (s : State) : Run code inputs region 0 s s
  | step {n : ℕ} {i : Instruction} {s t u : State} (hi : code[s.counter]? = some i)
      (hp : s.pointer ∈ region) (ht : (execute inputs i s).onward? = some t)
      (h : Run code inputs region n t u) : Run code inputs region (n + 1) s u

namespace Run

theorem single {i : Instruction} {s t : State} (hi : code[s.counter]? = some i)
    (hp : s.pointer ∈ region) (ht : (execute inputs i s).onward? = some t) :
    Run code inputs region 1 s t := step hi hp ht (refl t)

theorem trans {m n : ℕ} {s t u : State} (h : Run code inputs region m s t)
    (h' : Run code inputs region n t u) : Run code inputs region (m + n) s u := by
  induction h with
  | refl s => rwa [Nat.zero_add]
  | @step m i s t' u' hi hp ht _ ih =>
    rw [Nat.add_right_comm]
    exact step hi hp ht (ih h')

theorem split {m n : ℕ} {s t : State} (h : Run code inputs region (m + n) s t) :
    ∃ u, Run code inputs region m s u ∧ Run code inputs region n u t := by
  induction m generalizing s with
  | zero => exact ⟨s, refl s, by simpa using h⟩
  | succ m ih =>
    rw [Nat.add_right_comm] at h
    cases h with
    | step hi hp ht hrest =>
      obtain ⟨u, hu, hut⟩ := ih hrest
      exact ⟨u, step hi hp ht hu, hut⟩

theorem mono {larger : Set Int64} (hr : region ⊆ larger) {n : ℕ} {s t : State}
    (h : Run code inputs region n s t) : Run code inputs larger n s t := by
  induction h with
  | refl s => exact refl s
  | step hi hp ht _ ih => exact step hi (hr hp) ht ih

theorem executed_eq {n : ℕ} {s t : State} (h : Run code inputs region n s t) :
    t.executed = s.executed + n := by
  induction h with
  | refl s => rfl
  | step _ _ ht _ ih =>
    have hs := (onward_spec ht).1
    omega

theorem cell_eq {n : ℕ} {s t : State} (h : Run code inputs region n s t) {a : Int64}
    (ha : a ∉ region) : t.tape.cell a = s.tape.cell a := by
  induction h with
  | refl s => rfl
  | @step n i s t u _ hp ht _ ih =>
    have hne : s.pointer ≠ a := fun he => ha (he ▸ hp)
    rw [ih]
    rcases (onward_spec ht).2 with hs | hs | ⟨value, hs⟩
    · rw [hs]
    · rw [hs, Tape.cell_touch]
    · rw [hs, Tape.cell_write, if_neg hne]

theorem isTouched_eq {n : ℕ} {s t : State} (h : Run code inputs region n s t) {a : Int64}
    (ha : a ∉ region) : t.tape.isTouched a = s.tape.isTouched a := by
  induction h with
  | refl s => rfl
  | @step n i s t u _ hp ht _ ih =>
    have hne : (s.pointer == a) = false := beq_eq_false_iff_ne.mpr fun he => ha (he ▸ hp)
    rw [ih]
    rcases (onward_spec ht).2 with hs | hs | ⟨value, hs⟩
    · rw [hs]
    · rw [hs, Tape.isTouched_touch, hne, Bool.false_or]
    · rw [hs, Tape.isTouched_write, hne, Bool.false_or]

theorem touched_le {n : ℕ} {s t : State} (h : Run code inputs region n s t) :
    s.tape.touched ≤ t.tape.touched := by
  induction h with
  | refl s => exact le_rfl
  | step _ _ ht _ ih => exact (touched_of_onward ht).trans ih

theorem touched_le_add_card {cells : Finset Int64} {n : ℕ} {s t : State}
    (h : Run code inputs cells n s t) : t.tape.touched ≤ s.tape.touched + cells.card := by
  have hsub : t.tape.touchedCells ⊆ s.tape.touchedCells ∪ cells := by
    intro a ha
    by_cases hcells : a ∈ cells
    · exact Finset.mem_union_right _ hcells
    · have hkept : t.tape.isTouched a = s.tape.isTouched a := h.isTouched_eq (by simpa using hcells)
      apply Finset.mem_union_left
      rw [Tape.mem_touchedCells] at ha ⊢
      exact hkept.symm.trans ha
  calc t.tape.touched = t.tape.touchedCells.card := t.tape.card_touchedCells.symm
    _ ≤ (s.tape.touchedCells ∪ cells).card := Finset.card_le_card hsub
    _ ≤ s.tape.touchedCells.card + cells.card := Finset.card_union_le _ _
    _ = s.tape.touched + cells.card := by rw [Tape.card_touchedCells]

theorem touched_le_add_two {p q : Int64} {n : ℕ} {s t : State}
    (h : Run code inputs {p, q} n s t) : t.tape.touched ≤ s.tape.touched + 2 := by
  rw [← Finset.coe_pair] at h
  have hcard : ({p, q} : Finset Int64).card ≤ 2 := Finset.card_le_two
  exact h.touched_le_add_card.trans (Nat.add_le_add_left hcard _)

end Run

def State.raise (s : State) (offset : ℕ) : State := { s with counter := offset + s.counter }

theorem onward_shift {i : Instruction} {s t : State} (offset : ℕ)
    (h : (execute inputs i s).onward? = some t) :
    (execute inputs (i.shift offset) (s.raise offset)).onward? = some (t.raise offset) := by
  cases i with
  | move displacement =>
    cases h
    rfl
  | add delta =>
    cases h
    rfl
  | print =>
    cases h
    rfl
  | read =>
    cases hr : inputs[s.nextInput]? with
    | none => simp [execute, hr, Effect.onward?] at h
    | some value =>
      simp only [execute, hr] at h
      cases h
      simp [Instruction.shift, execute, State.raise, hr, Effect.onward?, State.goTo, State.store,
        Nat.add_assoc]
  | jumpIfZero target =>
    have hz : (s.raise offset).current = s.current := rfl
    by_cases h0 : s.current = 0
    · simp only [execute, if_pos h0] at h
      cases h
      simp only [Instruction.shift, execute, hz, if_pos h0]
      rfl
    · simp only [execute, if_neg h0] at h
      cases h
      simp only [Instruction.shift, execute, hz, if_neg h0]
      rfl
  | jumpIfNonzero target =>
    have hz : (s.raise offset).current = s.current := rfl
    by_cases h0 : s.current = 0
    · simp only [execute, if_pos h0] at h
      cases h
      simp only [Instruction.shift, execute, hz, if_pos h0]
      rfl
    · simp only [execute, if_neg h0] at h
      cases h
      simp only [Instruction.shift, execute, hz, if_neg h0]
      rfl
  | halt => cases h

/-- A run of code by itself is a run of any program that holds the code at some place. -/
theorem Run.relocate {a : List Instruction} {offset : ℕ}
    (hc : Holds code offset (a.map (Instruction.shift offset))) {n : ℕ} {s t : State}
    (h : Run a.toArray inputs region n s t) :
    Run code inputs region n (s.raise offset) (t.raise offset) := by
  induction h with
  | refl s => exact refl _
  | @step n i s t u hi hp ht _ ih =>
    have hi' : (a.map (Instruction.shift offset))[s.counter]? = some (i.shift offset) := by
      rw [List.getElem?_map, ← List.getElem?_toArray, hi]
      rfl
    exact step (hc.getElem? hi') hp (onward_shift offset ht) ih

theorem Run.append {a : List Instruction} (rest : List Instruction) {n : ℕ} {s t : State}
    (h : Run a.toArray inputs region n s t) : Run (a ++ rest).toArray inputs region n s t := by
  induction h with
  | refl s => exact refl s
  | @step n i s t u hi hp ht _ ih =>
    obtain ⟨hlt, -⟩ := Array.getElem?_eq_some_iff.mp hi
    have hi' : (a ++ rest).toArray[s.counter]? = some i := by
      rw [List.getElem?_toArray] at hi ⊢
      rwa [List.getElem?_append_left hlt]
    exact step hi' hp ht ih

theorem Run.runFrom_eq_ok {n : ℕ} {s t : State} (h : Run code inputs region n s t)
    (hend : code[t.counter]? = none) {limits : Limits} {budget : ℕ} (hn : n ≤ budget)
    (ht : t.tape.touched ≤ limits.cells) :
    runFrom code inputs limits budget s = .ok t.outcome := by
  induction h generalizing budget with
  | refl s => exact runFrom_of_none hend budget
  | @step n i s t u hi hp hs h ih =>
    obtain ⟨budget, rfl⟩ : ∃ b, budget = b + 1 := ⟨budget - 1, by omega⟩
    have hcells := h.touched_le
    rw [runFrom_succ hi]
    cases he : execute inputs i s with
    | next t' =>
      obtain rfl : t' = t := by simpa [he, Effect.onward?] using hs
      rw [proceed, if_neg (by omega)]
      exact ih hend (by omega) ht
    | jump t' =>
      obtain rfl : t' = t := by simpa [he, Effect.onward?] using hs
      exact ih hend (by omega) ht
    | stop t' => simp [he, Effect.onward?] at hs
    | noInput => simp [he, Effect.onward?] at hs

/-- A run that leaves the code has no other result than its outcome and a passed ceiling. -/
theorem Run.runFrom_eq_or {n : ℕ} {s t : State} (h : Run code inputs region n s t)
    (hend : code[t.counter]? = none) (limits : Limits) (budget : ℕ) :
    runFrom code inputs limits budget s = .ok t.outcome ∨
      ∃ resource limit,
        runFrom code inputs limits budget s = .error (.exceeded resource limit) := by
  induction h generalizing budget with
  | refl s => exact Or.inl (runFrom_of_none hend budget)
  | @step n i s t u hi hp hs h ih =>
    cases budget with
    | zero => exact Or.inr ⟨_, _, runFrom_zero hi⟩
    | succ budget =>
      rw [runFrom_succ hi]
      cases he : execute inputs i s with
      | next t' =>
        obtain rfl : t' = t := by simpa [he, Effect.onward?] using hs
        by_cases hcells : limits.cells < t'.tape.touched
        · exact Or.inr ⟨_, _, if_pos hcells⟩
        · rw [proceed, if_neg hcells]
          exact ih hend budget
      | jump t' =>
        obtain rfl : t' = t := by simpa [he, Effect.onward?] using hs
        exact ih hend budget
      | stop t' => simp [he, Effect.onward?] at hs
      | noInput => simp [he, Effect.onward?] at hs

/-- A run of more instructions than the budget allows passes a ceiling: that of the instructions,
unless it touches too many cells. -/
theorem Run.runFrom_exceeded {n : ℕ} {s t : State} (h : Run code inputs region n s t)
    {budget : ℕ} (hn : budget < n) (limits : Limits) :
    runFrom code inputs limits budget s =
        .error (.exceeded .instructions limits.instructions) ∨
      limits.cells < t.tape.touched ∧
        runFrom code inputs limits budget s = .error (.exceeded .cells limits.cells) := by
  induction h generalizing budget with
  | refl s => omega
  | @step n i s t u hi hp ht h ih =>
    cases budget with
    | zero => exact Or.inl (runFrom_zero hi)
    | succ budget =>
      have hlt : budget < n := by omega
      have hrest := ih hlt
      have htouched := h.touched_le
      rw [runFrom_succ hi]
      cases he : execute inputs i s with
      | next t' =>
        obtain rfl : t' = t := by simpa [he, Effect.onward?] using ht
        by_cases hcells : limits.cells < t'.tape.touched
        · exact Or.inr ⟨by omega, if_pos hcells⟩
        · rw [proceed, if_neg hcells]
          exact hrest
      | jump t' =>
        obtain rfl : t' = t := by simpa [he, Effect.onward?] using ht
        exact hrest
      | stop t' => simp [he, Effect.onward?] at ht
      | noInput => simp [he, Effect.onward?] at ht

/-- The count of a run that leaves the code is the smallest budget that suffices for it. -/
theorem Run.runFrom_eq_ite {n : ℕ} {s t : State} (h : Run code inputs region n s t)
    (hend : code[t.counter]? = none) {limits : Limits} (ht : t.tape.touched ≤ limits.cells)
    (budget : ℕ) : runFrom code inputs limits budget s =
      if n ≤ budget then .ok t.outcome
      else .error (.exceeded .instructions limits.instructions) := by
  split
  · next hn => exact h.runFrom_eq_ok hend hn ht
  · next hn =>
    rcases h.runFrom_exceeded (Nat.lt_of_not_le hn) limits with hspent | ⟨hcells, -⟩
    · exact hspent
    · omega

/-- A run to the end of the code, with what the machine makes of it under any ceilings that leave
room for its cells: its outcome as soon as the budget covers its instructions. -/
structure Finishes (code : Array Instruction) (inputs : Array Int64) (region : Set Int64) (n : ℕ)
    (s t : State) : Prop where
  run : Run code inputs region n s t
  counter : t.counter = code.size
  executed : t.executed = s.executed + n
  result : ∀ (limits : Limits) (budget : ℕ), t.tape.touched ≤ limits.cells →
    runFrom code inputs limits budget s =
      if n ≤ budget then .ok t.outcome
      else .error (.exceeded .instructions limits.instructions)

theorem Run.finishes {n : ℕ} {s t : State} (h : Run code inputs region n s t)
    (hend : t.counter = code.size) : Finishes code inputs region n s t := by
  have hoff : code[t.counter]? = none := by simp [hend]
  exact ⟨h, hend, h.executed_eq, fun limits budget ht => h.runFrom_eq_ite hoff ht budget⟩

theorem exists_next_of_endless {s : State} (h : ∀ n, ∃ t, Run code inputs region n s t) (n : ℕ) :
    ∃ t i, Run code inputs region n s t ∧ code[t.counter]? = some i := by
  obtain ⟨u, hu⟩ := h (n + 1)
  obtain ⟨t, ht, hnext⟩ := hu.split
  cases hnext with
  | step hi _ _ _ => exact ⟨t, _, ht, hi⟩

end Machine

end Tapecraft
