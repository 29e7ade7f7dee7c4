import Mathlib
import Tapecraft.Proofs.Machine.Run
import Tapecraft.Snippet.DrainLoop

/-! # What a drain loop does on the machine

The number of rounds of a drain loop is the least number of steps that bring its cell to zero.
The loop is run on an arbitrary tape, at an arbitrary place of a program: after these rounds its
cell is zero, its neighbour has changed by one fill for each of them, and no other cell is
looked at.
-/
namespace Tapecraft

/-- The search for the number of rounds finds the least one there is at all, not only the least
below 256: the multiples of a byte repeat. -/
theorem drainCount_eq_some_iff {x step : UInt8} {k : ℕ} :
    drainCount x step = some k ↔ IsLeast {k : ℕ | x + UInt8.ofNat k * step = 0} k := by
  rw [drainCount, List.find?_range_eq_some]
  constructor
  · rintro ⟨hk, -, hlt⟩
    refine ⟨by simpa using hk, fun j hj => ?_⟩
    by_contra hjk
    have hne : ¬ x + UInt8.ofNat j * step = 0 := by simpa using hlt j (by omega)
    exact hne hj
  · rintro ⟨hk, hleast⟩
    have hmod : k % 256 ∈ {k : ℕ | x + UInt8.ofNat k * step = 0} := by
      change x + UInt8.ofNat (k % 256) * step = 0
      rw [show UInt8.ofNat (k % 256) = UInt8.ofNat k from UInt8.ofNat_mod_size]
      exact hk
    have hlt : k < 256 := lt_of_le_of_lt (hleast hmod) (Nat.mod_lt _ (by omega))
    refine ⟨by simpa using hk, List.mem_range.mpr hlt, fun j hj => ?_⟩
    have hne : ¬ x + UInt8.ofNat j * step = 0 := fun h => absurd (hleast h) (by omega)
    simpa using hne

namespace Machine
variable {code : Array Instruction} {inputs : Array Int64} {region : Set Int64}

/-- A state as commands that print nothing left it, by its counter, its pointer and its cells. -/
structure Reached (s t : State) (counter : ℕ) (pointer : Int64) (cells : Int64 → UInt8) :
    Prop where
  counter : t.counter = counter
  pointer : t.pointer = pointer
  cells : t.tape.cell = cells
  output : t.output = s.output

theorem Reached.current {s t : State} {counter : ℕ} {pointer : Int64} {cells : Int64 → UInt8}
    (h : Reached s t counter pointer cells) : t.current = cells pointer := by
  rw [State.current, h.cells, h.pointer]

theorem run_move {displacement : Int64} {s : State}
    (hi : code[s.counter]? = some (.move displacement)) (hp : s.pointer ∈ region) :
    ∃ t, Run code inputs region 1 s t ∧
      Reached s t (s.counter + 1) (s.pointer + displacement) s.tape.cell :=
  ⟨_, .single hi hp rfl, rfl, rfl, rfl, rfl⟩

theorem run_adds {delta : Int8} {count : ℕ} {s : State}
    (hc : Holds code s.counter (List.replicate count (.add delta))) (hp : s.pointer ∈ region) :
    ∃ t, Run code inputs region count s t ∧
      Reached s t (s.counter + count) s.pointer
        (Function.update s.tape.cell s.pointer
          (s.current + UInt8.ofNat count * delta.toUInt8)) := by
  induction count generalizing s with
  | zero => exact ⟨s, .refl s, rfl, rfl, by simp [State.current], rfl⟩
  | succ count ih =>
    obtain ⟨hi, hc⟩ := hc
    let t := (s.store (s.current + delta.toUInt8)).goTo (s.counter + 1)
    have hcell : t.tape.cell = Function.update s.tape.cell s.pointer (s.current + delta.toUInt8) :=
      Tape.cell_write_eq_update _ _ _
    have hcur : t.current = s.current + delta.toUInt8 := by
      change t.tape.cell s.pointer = _
      rw [hcell, Function.update_self]
    obtain ⟨u, hu, hr⟩ := ih (s := t) hc hp
    refine ⟨u, .step hi hp rfl hu, ?_, hr.pointer, ?_, hr.output⟩
    · rw [hr.counter]
      change s.counter + 1 + count = _
      omega
    · rw [hr.cells, hcur, hcell]
      change Function.update (Function.update s.tape.cell s.pointer _) s.pointer _ = _
      rw [Function.update_idem, UInt8.ofNat_add]
      congr 1
      grind

theorem run_test {i : Instruction} {s : State} {counter : ℕ} (hi : code[s.counter]? = some i)
    (hp : s.pointer ∈ region)
    (ht : (execute inputs i s).onward? = some (s.look.goTo counter)) :
    ∃ t, Run code inputs region 1 s t ∧ Reached s t counter s.pointer s.tape.cell :=
  ⟨_, .single hi hp ht, rfl, rfl, funext fun a => Tape.cell_touch _ _ a, rfl⟩

theorem right_ne (p : Int64) : p + 1 ≠ p := by
  intro h
  have h0 : (1 : Int64) = 0 := by grind
  exact absurd h0 (by decide)

/-- What `rounds` rounds of a loop do to its cell and the neighbour, given the sum of the changes
to each of them in one round. -/
def drained (cells : Int64 → UInt8) (p : Int64) (drain fill : UInt8) (rounds : ℕ) :
    Int64 → UInt8 :=
  Function.update (Function.update cells p (cells p + UInt8.ofNat rounds * drain)) (p + 1)
    (cells (p + 1) + UInt8.ofNat rounds * fill)

theorem drained_self (cells : Int64 → UInt8) (p : Int64) (drain fill : UInt8) (rounds : ℕ) :
    drained cells p drain fill rounds p = cells p + UInt8.ofNat rounds * drain := by
  rw [drained, Function.update_of_ne (right_ne p).symm, Function.update_self]

theorem drained_right (cells : Int64 → UInt8) (p : Int64) (drain fill : UInt8) (rounds : ℕ) :
    drained cells p drain fill rounds (p + 1) = cells (p + 1) + UInt8.ofNat rounds * fill := by
  rw [drained, Function.update_self]

@[simp] theorem drained_zero (cells : Int64 → UInt8) (p : Int64) (drain fill : UInt8) :
    drained cells p drain fill 0 = cells := by
  simp [drained]

theorem drained_drained (cells : Int64 → UInt8) (p : Int64) (drain fill : UInt8) (m n : ℕ) :
    drained (drained cells p drain fill m) p drain fill n =
      drained cells p drain fill (m + n) := by
  funext a
  by_cases hq : a = p + 1
  · subst hq
    simp only [drained_right, UInt8.ofNat_add]
    grind
  · by_cases hp : a = p
    · subst hp
      simp only [drained_self, UInt8.ofNat_add]
      grind
    · simp only [drained, Function.update_of_ne hq, Function.update_of_ne hp]

section Loop
variable {drain fill : Int8} {d n : ℕ}

/-- The body of a drain loop with the test behind it, from which it goes back to an index. -/
def roundCode (drain fill : Int8) (d n back : ℕ) : List Instruction :=
  List.replicate d (.add drain) ++ .move 1 ::
    (List.replicate n (.add fill) ++ [.move (-1), .jumpIfNonzero back])

theorem run_round {s : State} (hc : Holds code s.counter (roundCode drain fill d n s.counter))
    (hp : s.pointer ∈ region) (hq : s.pointer + 1 ∈ region) :
    ∃ t, Run code inputs region (d + n + 3) s t ∧
      Reached s t
        (if s.current + UInt8.ofNat d * drain.toUInt8 = 0 then s.counter + (d + n + 3)
          else s.counter) s.pointer
        (drained s.tape.cell s.pointer (UInt8.ofNat d * drain.toUInt8)
          (UInt8.ofNat n * fill.toUInt8) 1) := by
  obtain ⟨hdrain, hright, hc⟩ := holds_append.mp hc
  obtain ⟨hfill, hleft, hback, -⟩ := holds_append.mp hc
  rw [List.length_replicate] at hright hfill hleft hback
  rw [List.length_replicate] at hleft hback
  obtain ⟨t₁, h₁, r₁⟩ : ∃ t, Run code inputs region d s t ∧ _ := run_adds hdrain hp
  have hp₁ : t₁.pointer ∈ region := r₁.pointer ▸ hp
  obtain ⟨t₂, h₂, r₂⟩ : ∃ t, Run code inputs region 1 t₁ t ∧ _ :=
    run_move (by rw [r₁.counter]; exact hright) hp₁
  have hp₂ : t₂.pointer ∈ region := by
    rw [r₂.pointer, r₁.pointer]
    exact hq
  obtain ⟨t₃, h₃, r₃⟩ : ∃ t, Run code inputs region n t₂ t ∧ _ :=
    run_adds (by rw [r₂.counter, r₁.counter]; exact hfill) hp₂
  have hp₃ : t₃.pointer ∈ region := r₃.pointer ▸ hp₂
  obtain ⟨t₄, h₄, r₄⟩ : ∃ t, Run code inputs region 1 t₃ t ∧ _ :=
    run_move (by rw [r₃.counter, r₂.counter, r₁.counter]; exact hleft) hp₃
  have hpointer : t₄.pointer = s.pointer := by
    rw [r₄.pointer, r₃.pointer, r₂.pointer, r₁.pointer]
    grind
  have hcounter : t₄.counter = s.counter + (d + n + 2) := by
    rw [r₄.counter, r₃.counter, r₂.counter, r₁.counter]
    omega
  have hcells : t₄.tape.cell = drained s.tape.cell s.pointer (UInt8.ofNat d * drain.toUInt8)
      (UInt8.ofNat n * fill.toUInt8) 1 := by
    rw [r₄.cells, r₃.cells, r₂.current, r₂.cells, r₂.pointer, r₁.cells, r₁.pointer,
      Function.update_of_ne (right_ne _)]
    simp [drained, State.current]
  have hcurrent : t₄.current = s.current + UInt8.ofNat d * drain.toUInt8 := by
    rw [State.current, hcells, hpointer, drained_self]
    simp [State.current]
  have hp₄ : t₄.pointer ∈ region := hpointer ▸ hp
  have hback' : code[t₄.counter]? = some (.jumpIfNonzero s.counter) := by
    rw [hcounter, show s.counter + (d + n + 2) = s.counter + d + 1 + n + 1 by omega]
    exact hback
  have htest : (execute inputs (.jumpIfNonzero s.counter) t₄).onward? = some (t₄.look.goTo
      (if s.current + UInt8.ofNat d * drain.toUInt8 = 0 then s.counter + (d + n + 3)
        else s.counter)) := by
    simp only [execute, hcurrent]
    split
    · rw [hcounter]
      rfl
    · rfl
  obtain ⟨t, h₅, r₅⟩ : ∃ t, Run code inputs region 1 t₄ t ∧ _ := run_test hback' hp₄ htest
  refine ⟨t, ?_, r₅.counter, ?_, ?_, ?_⟩
  · rw [show d + n + 3 = d + 1 + n + 1 + 1 by omega]
    exact (((h₁.trans h₂).trans h₃).trans h₄).trans h₅
  · rw [r₅.pointer, hpointer]
  · rw [r₅.cells, hcells]
  · rw [r₅.output, r₄.output, r₃.output, r₂.output, r₁.output]

/-- All rounds of a loop, when the cell becomes zero in the last of them and not before. -/
theorem run_rounds {start : ℕ} (hc : Holds code start (roundCode drain fill d n start))
    (rounds : ℕ) {s : State} (hs : s.counter = start)
    (hp : s.pointer ∈ region) (hq : s.pointer + 1 ∈ region)
    (hlast : s.current + UInt8.ofNat (rounds + 1) * (UInt8.ofNat d * drain.toUInt8) = 0)
    (hbefore : ∀ k ≤ rounds, 0 < k →
      s.current + UInt8.ofNat k * (UInt8.ofNat d * drain.toUInt8) ≠ 0) :
    ∃ t, Run code inputs region ((rounds + 1) * (d + n + 3)) s t ∧
      Reached s t (start + (d + n + 3)) s.pointer
        (drained s.tape.cell s.pointer (UInt8.ofNat d * drain.toUInt8)
          (UInt8.ofNat n * fill.toUInt8) (rounds + 1)) := by
  induction rounds generalizing s with
  | zero =>
    obtain ⟨t, ht, rt⟩ : ∃ t, Run code inputs region (d + n + 3) s t ∧ _ :=
      run_round (hs ▸ hc) hp hq
    rw [hs, if_pos (by simpa using hlast)] at rt
    exact ⟨t, by simpa using ht, rt⟩
  | succ rounds ih =>
    obtain ⟨t, ht, rt⟩ : ∃ t, Run code inputs region (d + n + 3) s t ∧ _ :=
      run_round (hs ▸ hc) hp hq
    rw [hs, if_neg (by simpa using hbefore 1 (by omega) (by omega))] at rt
    have hcurrent : t.current = s.current + UInt8.ofNat d * drain.toUInt8 := by
      rw [rt.current, drained_self]
      simp [State.current]
    have hshift (k : ℕ) : t.current + UInt8.ofNat k * (UInt8.ofNat d * drain.toUInt8) =
        s.current + UInt8.ofNat (k + 1) * (UInt8.ofNat d * drain.toUInt8) := by
      rw [hcurrent, UInt8.ofNat_add]
      grind
    obtain ⟨u, hu, ru⟩ := ih rt.counter (by rw [rt.pointer]; exact hp)
      (by rw [rt.pointer]; exact hq) (by rw [hshift]; exact hlast)
      (fun k hk h0 => by rw [hshift]; exact hbefore (k + 1) (by omega) (by omega))
    refine ⟨u, ?_, ru.counter, ru.pointer.trans rt.pointer, ?_, ru.output.trans rt.output⟩
    · rw [show (rounds + 1 + 1) * (d + n + 3) = d + n + 3 + (rounds + 1) * (d + n + 3) by ring]
      exact ht.trans hu
    · rw [ru.cells, rt.pointer, rt.cells, drained_drained, Nat.add_comm 1]

/-- A whole drain loop, with the test in front of it and the move behind it. The rounds are the
least number that brings the cell to zero, which may be none at all. -/
theorem run_loop {s : State} {rounds : ℕ}
    (hc : Holds code s.counter (.jumpIfZero (s.counter + (d + n + 4)) ::
      (roundCode drain fill d n (s.counter + 1) ++ [.move 1])))
    (hp : s.pointer ∈ region) (hq : s.pointer + 1 ∈ region)
    (hrounds : IsLeast
      {k : ℕ | s.current + UInt8.ofNat k * (UInt8.ofNat d * drain.toUInt8) = 0} rounds) :
    ∃ t, Run code inputs region (rounds * (d + n + 3) + 2) s t ∧
      Reached s t (s.counter + (d + n + 5)) (s.pointer + 1)
        (drained s.tape.cell s.pointer (UInt8.ofNat d * drain.toUInt8)
          (UInt8.ofNat n * fill.toUInt8) rounds) := by
  obtain ⟨htest, hc⟩ := hc
  obtain ⟨hround, hmove, -⟩ := holds_append.mp hc
  have hlength : (roundCode drain fill d n (s.counter + 1)).length = d + n + 3 := by
    simp [roundCode]
    omega
  rw [hlength] at hmove
  -- Whatever the test decides, the cells are as the rounds leave them when the move is reached.
  obtain ⟨t, ht, rt⟩ : ∃ t, Run code inputs region (rounds * (d + n + 3) + 1) s t ∧
      Reached s t (s.counter + (d + n + 4)) s.pointer
        (drained s.tape.cell s.pointer (UInt8.ofNat d * drain.toUInt8)
          (UInt8.ofNat n * fill.toUInt8) rounds) := by
    cases rounds with
    | zero =>
      have hzero : s.current = 0 := by simpa using hrounds.1
      obtain ⟨t, ht, rt⟩ : ∃ t, Run code inputs region 1 s t ∧ _ :=
        run_test htest hp (by simp only [execute, if_pos hzero]; rfl)
      exact ⟨t, by simpa using ht, by simpa using rt⟩
    | succ rounds =>
      have hbefore (k : ℕ) (hk : k ≤ rounds) :
          s.current + UInt8.ofNat k * (UInt8.ofNat d * drain.toUInt8) ≠ 0 := by
        intro h
        have hle := hrounds.2 h
        omega
      have hzero : s.current ≠ 0 := by simpa using hbefore 0 (by omega)
      obtain ⟨u, hu, ru⟩ : ∃ t, Run code inputs region 1 s t ∧ _ :=
        run_test htest hp (by simp only [execute, if_neg hzero]; rfl)
      have hcurrent : u.current = s.current := ru.current
      obtain ⟨t, ht, rt⟩ : ∃ t, Run code inputs region ((rounds + 1) * (d + n + 3)) u t ∧ _ :=
        run_rounds hround rounds ru.counter (ru.pointer ▸ hp) (ru.pointer ▸ hq)
          (by rw [hcurrent]; exact hrounds.1) (fun k hk _ => by rw [hcurrent]; exact hbefore k hk)
      refine ⟨t, ?_, ?_, rt.pointer.trans ru.pointer, ?_, rt.output.trans ru.output⟩
      · rw [Nat.add_comm]
        exact hu.trans ht
      · rw [rt.counter]
        omega
      · rw [rt.cells, ru.pointer, ru.cells]
  have hmove' : code[t.counter]? = some (.move 1) := by
    rw [rt.counter, show s.counter + (d + n + 4) = s.counter + 1 + (d + n + 3) by omega]
    exact hmove
  obtain ⟨u, hu, ru⟩ : ∃ u, Run code inputs region 1 t u ∧ _ :=
    run_move hmove' (rt.pointer ▸ hp)
  refine ⟨u, ht.trans hu, ?_, ?_, ru.cells.trans rt.cells, ru.output.trans rt.output⟩
  · rw [ru.counter, rt.counter]
    omega
  · rw [ru.pointer, rt.pointer]

end Loop

end Machine

namespace Block

def repeated (a : Action) (rest : Block) : ℕ → Block
  | 0 => rest
  | count + 1 => act a (repeated a rest count)

theorem commands_repeated (a : Action) (rest : Block) (count : ℕ) :
    (repeated a rest count).commands = List.replicate count (.action a) ++ rest.commands := by
  induction count with
  | zero => rfl
  | succ count ih => simp [repeated, commands, ih, List.replicate_succ]

theorem size_repeated (a : Action) (rest : Block) (count : ℕ) :
    (repeated a rest count).size = count + rest.size := by
  induction count with
  | zero => simp [repeated]
  | succ count ih =>
    simp only [repeated, size, ih]
    omega

theorem code_repeated (a : Action) (rest : Block) (count start : ℕ) :
    (repeated a rest count).code start =
      List.replicate count a.instruction ++ rest.code (start + count) := by
  induction count generalizing start with
  | zero => rfl
  | succ count ih =>
    rw [repeated, code, ih, List.replicate_succ, List.cons_append,
      show start + 1 + count = start + (count + 1) by omega]

end Block

theorem ofText_repeated (c : Command) (count : ℕ) :
    Command.ofText (repeated count c.toChar).toList = List.replicate count c := by
  induction count with
  | zero => rfl
  | succ count ih =>
    have htext : (repeated (count + 1) c.toChar).toList =
        c.toChar :: (repeated count c.toChar).toList := by
      simp [repeated, List.replicate_succ]
    rw [htext, List.replicate_succ, ← ih]
    simp [Command.ofText]

namespace DrainLoop

def drainAction (l : DrainLoop) : Action :=
  match l.direction with
  | .down => .decrement
  | .up => .increment

def fillAction (l : DrainLoop) : Action :=
  match l.direction with
  | .down => .increment
  | .up => .decrement

def block (l : DrainLoop) : Block :=
  .loop (.repeated l.drainAction
    (.act .right (.repeated l.fillAction (.act .left .done) l.fill)) l.drain) (.act .right .done)

theorem commands_block (l : DrainLoop) : l.block.commands = Command.ofText l.text.toList := by
  obtain ⟨direction, drain, fill⟩ := l
  have hdown := ofText_repeated (.action .decrement)
  have hup := ofText_repeated (.action .increment)
  cases direction with
  | down =>
    simp only [block, drainAction, fillAction, Block.commands, Block.commands_repeated, text,
      String.toList_append, Command.ofText_append]
    rw [show '-' = (Command.action .decrement).toChar from rfl, hdown,
      show '+' = (Command.action .increment).toChar from rfl, hup]
    simp [Command.ofText, Command.ofChar?]
  | up =>
    simp only [block, drainAction, fillAction, Block.commands, Block.commands_repeated, text,
      String.toList_append, Command.ofText_append]
    rw [show '-' = (Command.action .decrement).toChar from rfl, hdown,
      show '+' = (Command.action .increment).toChar from rfl, hup]
    simp [Command.ofText, Command.ofChar?]

def drainDelta (l : DrainLoop) : Int8 :=
  match l.direction with
  | .down => -1
  | .up => 1

def fillDelta (l : DrainLoop) : Int8 :=
  match l.direction with
  | .down => 1
  | .up => -1

theorem drainStep_eq (l : DrainLoop) :
    l.drainStep = UInt8.ofNat l.drain * l.drainDelta.toUInt8 := by
  obtain ⟨direction, drain, fill⟩ := l
  cases direction with
  | down =>
    change -UInt8.ofNat drain = UInt8.ofNat drain * -1
    grind
  | up =>
    change UInt8.ofNat drain = UInt8.ofNat drain * 1
    grind

theorem filled_eq (l : DrainLoop) (rounds : ℕ) :
    l.filled rounds = UInt8.ofNat rounds * (UInt8.ofNat l.fill * l.fillDelta.toUInt8) := by
  obtain ⟨direction, drain, fill⟩ := l
  cases direction with
  | down =>
    change UInt8.ofNat (rounds * fill) = UInt8.ofNat rounds * (UInt8.ofNat fill * 1)
    rw [UInt8.ofNat_mul]
    grind
  | up =>
    change -UInt8.ofNat (rounds * fill) = UInt8.ofNat rounds * (UInt8.ofNat fill * -1)
    rw [UInt8.ofNat_mul]
    grind

theorem size_block (l : DrainLoop) : l.block.size = l.weight := by
  simp only [block, Block.size, Block.size_repeated, weight]
  omega

theorem code_block (l : DrainLoop) (start : ℕ) :
    l.block.code start = .jumpIfZero (start + (l.drain + l.fill + 4)) ::
      (Machine.roundCode l.drainDelta l.fillDelta l.drain l.fill (start + 1) ++ [.move 1]) := by
  have hdrain : l.drainAction.instruction = .add l.drainDelta := by
    unfold drainAction drainDelta
    cases l.direction <;> rfl
  have hfill : l.fillAction.instruction = .add l.fillDelta := by
    unfold fillAction fillDelta
    cases l.direction <;> rfl
  have hright : Action.right.instruction = .move 1 := rfl
  have hleft : Action.left.instruction = .move (-1) := rfl
  have htarget : start + (l.drain + (l.fill + 1 + 1)) + 2 = start + (l.drain + l.fill + 4) := by
    omega
  simp [block, Block.code, Block.code_repeated, Block.size, Block.size_repeated,
    Machine.roundCode, hdrain, hfill, hright, hleft, htarget]

open Machine in
/-- A drain loop that ends, started next to a zero cell, empties its cell and leaves the
neighbour filled and the pointer on it. -/
theorem run {code : Array Instruction} {inputs : Array Int64} {region : Set Int64}
    (l : DrainLoop) {s : State} {rounds : ℕ}
    (hc : Holds code s.counter (l.block.code s.counter))
    (hp : s.pointer ∈ region) (hq : s.pointer + 1 ∈ region)
    (hr : drainCount s.current l.drainStep = some rounds)
    (hzero : s.tape.cell (s.pointer + 1) = 0) :
    ∃ t, Run code inputs region (rounds * (l.drain + l.fill + 3) + 2) s t ∧
      Reached s t (s.counter + l.weight) (s.pointer + 1)
        (Function.update (Function.update s.tape.cell s.pointer 0) (s.pointer + 1)
          (l.filled rounds)) := by
  rw [l.code_block] at hc
  rw [drainCount_eq_some_iff, l.drainStep_eq] at hr
  obtain ⟨t, ht, rt⟩ : ∃ t, Run code inputs region _ s t ∧ _ := run_loop hc hp hq hr
  refine ⟨t, ht, rt.counter, rt.pointer, ?_, rt.output⟩
  have hempty : s.tape.cell s.pointer +
      UInt8.ofNat rounds * (UInt8.ofNat l.drain * l.drainDelta.toUInt8) = 0 := hr.1
  rw [rt.cells, drained, hempty, hzero, l.filled_eq, UInt8.zero_add]

end DrainLoop

end Tapecraft
