import Mathlib
import Tapecraft.Proofs.Machine.PlainTape

/-! # Inputs as an endless cycle of bytes

Of a list of inputs a run can only see the endless sequence of low bytes that repeating the list
gives. Two lists with the same sequence are the same to every program, and which value a read
takes depends only on how many reads were executed before it.
-/
namespace Tapecraft

theorem getElem?_flatten_replicate {α : Type} (l : List α) {n k : ℕ} (h : k < n * l.length) :
    (List.replicate n l).flatten[k]? = l[k % l.length]? := by
  induction n generalizing k with
  | zero => simp at h
  | succ n ih =>
    rw [List.replicate_succ, List.flatten_cons]
    by_cases hk : k < l.length
    · rw [List.getElem?_append_left hk, Nat.mod_eq_of_lt hk]
    · have hle : l.length ≤ k := Nat.le_of_not_lt hk
      rw [Nat.succ_mul] at h
      rw [List.getElem?_append_right hle, ih (by omega), ← Nat.mod_eq_sub_mod hle]

def repeatedInputs (n : ℕ) (inputs : Array Int64) : Array Int64 :=
  (List.replicate n inputs.toList).flatten.toArray

theorem feed_repeatedInputs (n : ℕ) (inputs : Array Int64) :
    feed (repeatedInputs (n + 1) inputs) = feed inputs := by
  have hsize : (repeatedInputs (n + 1) inputs).size = (n + 1) * inputs.size := by
    simp [repeatedInputs]
  funext k
  rw [feed, feed, hsize]
  rcases Nat.eq_zero_or_pos inputs.size with hzero | hpos
  · obtain rfl := Array.eq_empty_of_size_eq_zero hzero
    simp [repeatedInputs]
  · have hlt : k % ((n + 1) * inputs.size) < (n + 1) * inputs.toList.length :=
      Nat.mod_lt _ (Nat.mul_pos (Nat.succ_pos n) hpos)
    have hget := getElem?_flatten_replicate inputs.toList hlt
    rw [Array.length_toList, Nat.mod_mul_left_mod] at hget
    rw [repeatedInputs, List.getElem?_toArray, hget, Array.getElem?_toList]

theorem feed_map {f : Int64 → Int64} (hf : ∀ x, (f x).toInt ≡ x.toInt [ZMOD 256])
    (inputs : Array Int64) : feed (inputs.map f) = feed inputs := by
  funext k
  rw [feed, feed, Array.size_map, Array.getElem?_map, Option.map_map]
  congr 1
  funext x
  exact (ZMod.intCast_eq_intCast_iff _ _ 256).mpr (hf x)

theorem toNat_lowByte (x : Int64) : (x.toUInt64.toUInt8.toNat : ℤ) = x.toInt % 256 := by
  have hmod : (x.toUInt64.toUInt8.toNat : ℤ) ≡ x.toInt [ZMOD 256] :=
    (ZMod.intCast_eq_intCast_iff _ _ 256).mp (by exact_mod_cast PlainTape.natCast_lowByte x)
  have hlt : x.toUInt64.toUInt8.toNat < 256 := UInt8.toNat_lt _
  rw [← hmod, Int.emod_eq_of_lt (Int.natCast_nonneg _) (by exact_mod_cast hlt)]

theorem toInt_and_modEq (x : Int64) : (x &&& 255).toInt ≡ x.toInt [ZMOD 256] := by
  have hbyte : (x &&& 255).toUInt64.toUInt8 = x.toUInt64.toUInt8 := by
    rw [Int64.toUInt64_and, UInt64.toUInt8_and, show (255 : Int64).toUInt64.toUInt8 = -1 from rfl,
      UInt8.and_neg_one]
  rw [Int.ModEq, ← toNat_lowByte, ← toNat_lowByte, hbyte]

theorem feed_eq_of_modEq {u v : Array Int64} (hu : 0 < u.size) (hv : 0 < v.size)
    (h : ∀ k x y, u[k % u.size]? = some x → v[k % v.size]? = some y →
      x.toInt ≡ y.toInt [ZMOD 256]) : feed u = feed v := by
  funext k
  have hx := Array.getElem?_eq_getElem (Nat.mod_lt k hu)
  have hy := Array.getElem?_eq_getElem (Nat.mod_lt k hv)
  rw [feed, feed, hx, hy, Option.map_some, Option.map_some]
  exact congrArg some ((ZMod.intCast_eq_intCast_iff _ _ 256).mpr (h k _ _ hx hy))

namespace Machine
variable {code : Array Instruction} {inputs : Array Int64} {limits : Limits}

/-- The instructions that are executed, in order, on the way to a state. -/
inductive Trail (code : Array Instruction) (inputs : Array Int64) : List Instruction → State → Prop
  | start : Trail code inputs [] {}
  | onward {trail : List Instruction} {i : Instruction} {s t : State}
      (h : Trail code inputs trail s) (hi : code[s.counter]? = some i)
      (ht : (execute inputs i s).onward? = some t) : Trail code inputs (trail ++ [i]) t

theorem Visited.exists_trail {a : Arrival} {s : State} (h : Visited code inputs limits a s) :
    ∃ trail, trail.length = s.executed ∧ Trail code inputs trail s := by
  induction h with
  | start => exact ⟨[], rfl, .start⟩
  | @next a i s t _ hi _ ht _ ih =>
    obtain ⟨trail, hlength, htrail⟩ := ih
    refine ⟨trail ++ [i], ?_, htrail.onward hi (by rw [ht]; rfl)⟩
    rw [List.length_append, hlength, executed_of_next ht, List.length_singleton]
  | @jump a i s t _ hi _ ht ih =>
    obtain ⟨trail, hlength, htrail⟩ := ih
    refine ⟨trail ++ [i], ?_, htrail.onward hi (by rw [ht]; rfl)⟩
    rw [List.length_append, hlength, executed_of_jump ht, List.length_singleton]

theorem nextInput_of_onward {i : Instruction} {s t : State}
    (h : (execute inputs i s).onward? = some t) :
    t.nextInput = if i = .read then (s.nextInput + 1) % inputs.size else s.nextInput := by
  rcases onward_cases h with ⟨d, rfl, rfl⟩ | ⟨d, rfl, rfl⟩ | ⟨rfl, rfl⟩ | ⟨value, rfl, -, rfl⟩ |
    ⟨target, rfl, rfl⟩ | ⟨target, rfl, rfl⟩ <;> rfl

/-- The cursor in the inputs is the count of the reads so far, around the cycle. -/
theorem Trail.nextInput_eq {trail : List Instruction} {s : State}
    (h : Trail code inputs trail s) : s.nextInput = trail.count .read % inputs.size := by
  induction h with
  | start => exact (Nat.zero_mod _).symm
  | @onward trail i s t _ _ ht ih =>
    rw [nextInput_of_onward ht, List.count_append, List.count_singleton, ih]
    by_cases hi : i = .read
    · rw [if_pos hi, hi, beq_self_eq_true, if_pos rfl, Nat.mod_add_mod]
    · rw [if_neg hi, if_neg (by simpa using hi), Nat.add_zero]

theorem Trail.execute_read {trail : List Instruction} {s : State}
    (h : Trail code inputs trail s) (hi : code[s.counter]? = some .read)
    (hpos : 0 < inputs.size) :
    ∃ value t, inputs[trail.count .read % inputs.size]? = some value ∧
      execute inputs .read s = .next t ∧ Trail code inputs (trail ++ [.read]) t ∧
      ((t.tape.cell s.pointer).toNat : ℤ) = value.toInt % 256 := by
  obtain ⟨value, hvalue⟩ : ∃ value, inputs[trail.count .read % inputs.size]? = some value :=
    ⟨_, Array.getElem?_eq_getElem (Nat.mod_lt _ hpos)⟩
  have hread : execute inputs .read s = .next ({ s.store value.toUInt64.toUInt8 with
      nextInput := (s.nextInput + 1) % inputs.size }.goTo (s.counter + 1)) := by
    rw [← h.nextInput_eq] at hvalue
    simp only [execute, hvalue]
  refine ⟨value, _, hvalue, hread, h.onward hi (by rw [hread]; rfl), ?_⟩
  rw [← toNat_lowByte]
  change (((s.tape.write s.pointer value.toUInt64.toUInt8).cell s.pointer).toNat : ℤ) = _
  rw [Tape.cell_write, if_pos rfl]

end Machine

namespace Program
open Machine

theorem run_eq_of_feed_eq (p : Program) (limits : Limits) {u v : Array Int64}
    (h : feed u = feed v) : p.run u limits = p.run v limits := by
  rw [run_eq_plainTape, run_eq_plainTape, h]

/-- Inputs that give the same low bytes, each list repeated without end, are the same to every
program; so a list may be repeated and its values cut to their low bytes. A run under any ceilings
comes to its result on a way of executed instructions, and on every such way a read stores the low
byte of the input whose number is the count of the reads executed before it, around the cycle. -/
theorem inputs_cycle_as_bytes (p : Program) (limits : Limits) {u : Array Int64}
    (hu : 0 < u.size) :
    (∀ v : Array Int64, 0 < v.size →
      (∀ k x y, u[k % u.size]? = some x → v[k % v.size]? = some y →
        x.toInt ≡ y.toInt [ZMOD 256]) → p.run u limits = p.run v limits) ∧
    (∀ n, p.run (repeatedInputs (n + 1) u) limits = p.run u limits) ∧
    p.run (u.map (· &&& 255)) limits = p.run u limits ∧
    (∃ trail s, trail.length = s.executed ∧ Trail p.code u trail s ∧
      Ends p.code u limits s (p.run u limits)) ∧
    (∀ a s, Visited p.code u limits a s →
      ∃ trail, trail.length = s.executed ∧ Trail p.code u trail s) ∧
    ∀ trail s, Trail p.code u trail s → p.code[s.counter]? = some .read →
      ∃ value t, u[trail.count .read % u.size]? = some value ∧ execute u .read s = .next t ∧
        Trail p.code u (trail ++ [.read]) t ∧
        ((t.tape.cell s.pointer).toNat : ℤ) = value.toInt % 256 := by
  refine ⟨?_, ?_, ?_, ?_, ?_, ?_⟩
  · intro v hv h
    exact p.run_eq_of_feed_eq limits (feed_eq_of_modEq hu hv h)
  · intro n
    exact p.run_eq_of_feed_eq limits (feed_repeatedInputs n u)
  · exact p.run_eq_of_feed_eq limits (feed_map toInt_and_modEq u)
  · obtain ⟨a, s, hs, hends⟩ := run_eq_iff.mp (rfl : p.run u limits = p.run u limits)
    obtain ⟨trail, hlength, htrail⟩ := hs.exists_trail
    exact ⟨trail, s, hlength, htrail, hends⟩
  · intro a s hs
    exact hs.exists_trail
  · intro trail s hs hi
    exact hs.execute_read hi hu

theorem inputs_cycle_as_bytes_letter :
    let p : Program := ofInstructions #[.read, .print, .read, .print]
    let u : Array Int64 := #[321, -191]
    p.run u {} = .ok ⟨"AA", 4, 1⟩ ∧ p.run #[65] {} = .ok ⟨"AA", 4, 1⟩ ∧
      ∃ s t, Trail p.code u [.read, .print] s ∧
      execute u .read s = .next t ∧ ((t.tape.cell s.pointer).toNat : ℤ) = 65 := by
  intro p u
  have hmod (k : ℕ) (x y : Int64) (hx : u[k % 2]? = some x)
      (hy : (#[65] : Array Int64)[k % 1]? = some y) : x.toInt ≡ y.toInt [ZMOD 256] := by
    rw [Nat.mod_one] at hy
    cases hy
    rcases Nat.mod_two_eq_zero_or_one k with hk | hk
    · rw [hk] at hx
      cases hx
      decide
    · rw [hk] at hx
      cases hx
      decide
  have hrun : p.run #[65] {} = .ok ⟨"AA", 4, 1⟩ := by
    simp [p, ofInstructions, Program.run, runFrom, execute, State.store, State.emit, State.look,
      State.goTo, State.outcome, State.current, Tape.cell_write, Tape.isTouched_write,
      Tape.isTouched_touch, Tape.touched_write, Tape.touched_touch]
    rfl
  obtain ⟨hsame, -, -, -, -, hread⟩ := inputs_cycle_as_bytes p {} (u := u) (by decide)
  have hfirst : Trail p.code u [.read] _ := Trail.start.onward (i := .read) rfl rfl
  have hsecond : Trail p.code u [.read, .print] _ := hfirst.onward (i := .print) rfl rfl
  obtain ⟨value, t, hvalue, ht, -, hcell⟩ := hread _ _ hsecond rfl
  cases hvalue
  exact ⟨(hsame #[65] (by decide) hmod).trans hrun, hrun, _, t, hsecond, ht, hcell⟩

end Program

end Tapecraft
