import Mathlib
import Tapecraft.Proofs.Snippet.Drain
import Tapecraft.Snippet.Table

/-! # Text that carries one byte to another

The meaning of a snippet on the machine, for every tape and every place on it: started on a
cell with the first byte and nothing but zeros to its right, it ends on a cell with the second
byte, one cell further right for each of its loops, with zeros on both sides of that cell as
far as it went, and it reads and writes no cell outside this stretch. The meaning is stated for
text by itself, so that it can be asked of any table of snippets, and it is kept when two texts
are joined.
-/
namespace Tapecraft

/-- The addresses from `p` up to `width` places to its right. -/
def span (p : Int64) (width : ℕ) : Set Int64 := {a | p ≤ a ∧ a.toInt ≤ p.toInt + width}

def loopCount (text : String) : ℕ := text.toList.count '['

@[simp] theorem loopCount_append (a b : String) :
    loopCount (a ++ b) = loopCount a + loopCount b := by
  simp [loopCount, List.count_append]

namespace Machine

/-- The current cell holds `x`, all cells to its right are zero, and at least `reach` addresses
are left on that side. -/
structure Ready (x : UInt8) (reach : ℕ) (s : State) : Prop where
  current : s.current = x
  blank : ∀ a, s.pointer < a → s.tape.cell a = 0
  room : s.pointer.toInt + reach ≤ Int64.maxValue.toInt

/-- The run ended `reach` places to the right of where it began, on a cell with `y`. The cells it
passed and those to the right of its end are zero, and everything else is as it was. -/
structure Arrived (y : UInt8) (reach : ℕ) (s t : State) : Prop where
  pointer : t.pointer.toInt = s.pointer.toInt + reach
  current : t.current = y
  emptied : ∀ a, s.pointer ≤ a → a < t.pointer → t.tape.cell a = 0
  blank : ∀ a, t.pointer < a → t.tape.cell a = 0
  kept : ∀ a, a < s.pointer → t.tape.cell a = s.tape.cell a
  output : t.output = s.output

theorem Arrived.trans {z y : UInt8} {m n : ℕ} {s t u : State} (h : Arrived z m s t)
    (h' : Arrived y n t u) : Arrived y (m + n) s u := by
  have hst := h.pointer
  have htu := h'.pointer
  refine ⟨by push_cast; omega, h'.current, ?_, h'.blank, ?_, h'.output.trans h.output⟩
  · intro a hsa hau
    by_cases hat : a < t.pointer
    · rw [h'.kept a hat]
      exact h.emptied a hsa hat
    · exact h'.emptied a (Int64.not_lt.mp hat) hau
  · intro a ha
    have hat : a < t.pointer := by
      rw [Int64.lt_iff_toInt_lt] at ha ⊢
      omega
    rw [h'.kept a hat, h.kept a ha]

theorem Ready.after {x y : UInt8} {m n : ℕ} {s t : State} (hs : Ready x (m + n) s)
    (h : Arrived y m s t) : Ready y n t := by
  refine ⟨h.current, h.blank, ?_⟩
  have hroom := hs.room
  rw [h.pointer]
  push_cast at hroom
  omega

end Machine

open Machine

theorem not_mem_span_of_lt {p a : Int64} {width : ℕ} (h : a < p) : a ∉ span p width :=
  fun ha => absurd h (Int64.not_lt.mpr ha.1)

theorem Machine.Run.touched_le_add_span {code : Array Instruction} {inputs : Array Int64}
    {p : Int64} {width n : ℕ} {s t : State} (h : Run code inputs (span p width) n s t) :
    t.tape.touched ≤ s.tape.touched + (width + 1) := by
  let cells := (Finset.range (width + 1)).image fun i : ℕ => Int64.ofInt (p.toInt + i)
  have hsub : span p width ⊆ cells := by
    intro a ha
    have hlow := Int64.le_iff_toInt_le.mp ha.1
    have hhigh := ha.2
    refine Finset.mem_coe.mpr (Finset.mem_image.mpr ⟨(a.toInt - p.toInt).toNat, ?_, ?_⟩)
    · exact Finset.mem_range.mpr (by omega)
    · rw [Int.toNat_of_nonneg (by omega), add_sub_cancel, Int64.ofInt_toInt]
  have hcard : cells.card ≤ width + 1 := Finset.card_image_le.trans_eq (Finset.card_range _)
  exact (h.mono hsub).touched_le_add_card.trans (Nat.add_le_add_left hcard _)

/-- Text of silent commands that carries `x` to `y` within `budget` instructions, wherever on a
tape there is room for it. A budget of `⊤` sets no ceiling. -/
structure Carries (budget : ℕ∞) (x y : UInt8) (text : String) : Prop where
  silent : ∀ c ∈ text.toList, c ∈ ['+', '-', '<', '>', '[', ']']
  runs : ∃ p, Program.compile text = .ok p ∧ ∀ (inputs : Array Int64) (s : State),
    s.counter = 0 → Ready x (loopCount text) s → ∃ (n : ℕ) (t : State), n ≤ budget ∧
      Finishes p.code inputs (span s.pointer (loopCount text)) n s t ∧
      Arrived y (loopCount text) s t

namespace Carries
variable {budget : ℕ∞} {x y z : UInt8} {text : String}

/-- A snippet does its work at any place of a program. -/
theorem run_at (h : Carries budget x y text) {b : Block}
    (hb : b.commands = Command.ofText text.toList) {code : Array Instruction}
    (inputs : Array Int64) {s : State} (hc : Holds code s.counter (b.code s.counter))
    (hs : Ready x (loopCount text) s) :
    ∃ (n : ℕ) (t : State), n ≤ budget ∧
      Run code inputs (span s.pointer (loopCount text)) n s t ∧
      t.counter = s.counter + b.size ∧ Arrived y (loopCount text) s t := by
  obtain ⟨p, hp, hruns⟩ := h.runs
  obtain ⟨c, hcb, rfl⟩ := Program.compile_eq_ok_iff.mp hp
  obtain rfl : b = c := Block.commands_injective (hb.trans hcb.symm)
  obtain ⟨n, t, hn, hfin, harr⟩ := hruns inputs { s with counter := 0 } rfl
    ⟨hs.current, hs.blank, hs.room⟩
  have hc' : Holds code s.counter ((b.code 0).map (Instruction.shift s.counter)) := by
    rw [Block.map_shift_code]
    exact hc
  refine ⟨n, t.raise s.counter, hn, hfin.run.relocate hc', ?_, ?_⟩
  · change s.counter + t.counter = s.counter + b.size
    rw [hfin.counter]
    simp
  · exact ⟨harr.pointer, harr.current, harr.emptied, harr.blank, harr.kept, harr.output⟩

theorem mono {larger : ℕ∞} (hl : budget ≤ larger) (h : Carries budget x y text) :
    Carries larger x y text := by
  obtain ⟨p, hp, hruns⟩ := h.runs
  refine ⟨h.silent, p, hp, fun inputs s h0 hs => ?_⟩
  obtain ⟨n, t, hn, hrest⟩ := hruns inputs s h0 hs
  exact ⟨n, t, hn.trans hl, hrest⟩

theorem span_subset_left (p : Int64) (m n : ℕ) : span p m ⊆ span p (m + n) := by
  intro a ha
  refine ⟨ha.1, ?_⟩
  have h := ha.2
  push_cast
  omega

theorem span_subset_right {p q : Int64} {m : ℕ} (hq : q.toInt = p.toInt + m) (n : ℕ) :
    span q n ⊆ span p (m + n) := by
  intro a ha
  have hqa := Int64.le_iff_toInt_le.mp ha.1
  have han := ha.2
  refine ⟨Int64.le_iff_toInt_le.mpr (by omega), ?_⟩
  push_cast
  omega

/-- One snippet after the other: the second starts on the cell where the first ended, with only
zeros to the right of it. -/
theorem join {m n : ℕ∞} {a b : String} (ha : Carries m x z a) (hb : Carries n z y b) :
    Carries (m + n) x y (a ++ b) := by
  obtain ⟨p, hp, -⟩ := ha.runs
  obtain ⟨c, hc, -⟩ := Program.compile_eq_ok_iff.mp hp
  obtain ⟨q, hq, -⟩ := hb.runs
  obtain ⟨d, hd, -⟩ := Program.compile_eq_ok_iff.mp hq
  have hcd : (c.append d).commands = Command.ofText (a ++ b).toList := by
    rw [Block.commands_append, hc, hd, String.toList_append, Command.ofText_append]
  refine ⟨?_, ⟨a ++ b, ((c.append d).code 0).toArray⟩,
    Program.compile_eq_ok_iff.mpr ⟨c.append d, hcd, rfl⟩, ?_⟩
  · intro ch hch
    rw [String.toList_append, List.mem_append] at hch
    exact hch.elim (ha.silent ch) (hb.silent ch)
  · intro inputs s h0 hs
    rw [loopCount_append] at hs ⊢
    obtain ⟨hfirst, hsecond⟩ := Block.holds_code_append.mp (holds_self ((c.append d).code 0))
    obtain ⟨n₁, t, hn₁, hrun₁, hend₁, harr₁⟩ := ha.run_at hc inputs (by rw [h0]; exact hfirst)
      ⟨hs.current, hs.blank, by have := hs.room; push_cast at this; omega⟩
    have hcounter : t.counter = 0 + c.size := by rw [hend₁, h0]
    obtain ⟨n₂, u, hn₂, hrun₂, hend₂, harr₂⟩ := hb.run_at hd inputs
      (by rw [hcounter]; exact hsecond) (hs.after harr₁)
    have hrun := (hrun₁.mono (span_subset_left _ _ _)).trans
      (hrun₂.mono (span_subset_right harr₁.pointer _))
    refine ⟨n₁ + n₂, u, by push_cast; exact add_le_add hn₁ hn₂, hrun.finishes ?_,
      harr₁.trans harr₂⟩
    rw [hend₂, hcounter]
    simp

theorem of_repeated {a : Action} {delta : Int8} (hi : a.instruction = .add delta)
    (hch : (Command.action a).toChar ∈ ['+', '-']) {count : ℕ}
    (hy : y = x + UInt8.ofNat count * delta.toUInt8) :
    Carries count x y (repeated count (Command.action a).toChar) := by
  have hlist : (repeated count (Command.action a).toChar).toList =
      List.replicate count (Command.action a).toChar := by simp [repeated]
  have hne : (Command.action a).toChar ≠ '[' := by
    intro h
    rw [h] at hch
    exact absurd hch (by decide)
  have hloops : loopCount (repeated count (Command.action a).toChar) = 0 := by
    rw [loopCount, hlist, List.count_replicate, if_neg (by simpa using hne)]
  let b := Block.repeated a .done count
  have hb : b.commands = Command.ofText (repeated count (Command.action a).toChar).toList := by
    rw [Block.commands_repeated, ofText_repeated]
    simp [Block.commands]
  have hcode (start : ℕ) : b.code start = List.replicate count (.add delta) := by
    rw [Block.code_repeated, hi]
    simp [Block.code]
  refine ⟨?_, ⟨_, (b.code 0).toArray⟩, Program.compile_eq_ok_iff.mpr ⟨b, hb, rfl⟩, ?_⟩
  · intro c hc
    rw [hlist] at hc
    rw [List.eq_of_mem_replicate hc]
    simp only [List.mem_cons, List.not_mem_nil, or_false] at hch ⊢
    rcases hch with h | h <;> simp [h]
  · intro inputs s h0 hs
    rw [hloops] at hs ⊢
    have hp : s.pointer ∈ span s.pointer 0 := ⟨Int64.le_refl _, by simp⟩
    have hc : Holds (b.code 0).toArray s.counter (List.replicate count (.add delta)) := by
      rw [h0, hcode]
      exact holds_self _
    obtain ⟨t, ht, rt⟩ : ∃ t, Run _ inputs _ count s t ∧ _ := run_adds hc hp
    have hend : t.counter = (b.code 0).toArray.size := by
      rw [rt.counter, h0, hcode]
      simp
    refine ⟨count, t, le_rfl, ht.finishes hend, ?_, ?_, ?_, ?_, ?_, rt.output⟩
    · simp [rt.pointer]
    · rw [rt.current, Function.update_self, hs.current, hy]
    · intro a hsa hat
      rw [rt.pointer] at hat
      exact absurd hat (Int64.not_lt.mpr hsa)
    · intro a ha
      rw [rt.pointer] at ha
      rw [rt.cells, Function.update_of_ne (Int64.ne_of_lt ha).symm]
      exact hs.blank a ha
    · intro a ha
      exact ht.cell_eq (not_mem_span_of_lt ha)

theorem ofNat_turn (r : UInt8) : UInt8.ofNat (256 - r.toNat) = -r := by
  have hlt := r.toNat_lt
  have hsum : UInt8.ofNat (256 - r.toNat) + UInt8.ofNat r.toNat = 0 := by
    rw [← UInt8.ofNat_add, Nat.sub_add_cancel (Nat.le_of_lt hlt)]
    rfl
  rw [UInt8.ofNat_toNat] at hsum
  grind

theorem of_straight (x y : UInt8) :
    Carries (Entry.straight x y).length x y (Entry.straight x y).text := by
  simp only [Entry.straight]
  split
  · refine of_repeated (a := .increment) rfl (by decide) ?_
    rw [UInt8.ofNat_toNat]
    change y = x + (y - x) * 1
    grind
  · refine of_repeated (a := .decrement) rfl (by decide) ?_
    rw [ofNat_turn]
    change y = x + -(y - x) * -1
    grind

theorem toInt_right {p : Int64} (h : p.toInt + 1 ≤ Int64.maxValue.toInt) :
    (p + 1).toInt = p.toInt + 1 := by
  have hlow := p.le_toInt
  rw [Int64.toInt_add, show (1 : Int64).toInt = 1 from rfl]
  rw [Int64.toInt_maxValue] at h
  refine Int.bmod_eq_of_le ?_ ?_ <;> omega

theorem lt_right {p : Int64} (h : p.toInt + 1 ≤ Int64.maxValue.toInt) : p < p + 1 := by
  rw [Int64.lt_iff_toInt_lt, toInt_right h]
  omega

theorem silent_text (l : DrainLoop) :
    ∀ c ∈ l.text.toList, c ∈ ['+', '-', '<', '>', '[', ']'] := by
  obtain ⟨direction, drain, fill⟩ := l
  intro c hc
  cases direction <;>
  · simp only [DrainLoop.text, repeated, String.toList_append, String.toList_ofList,
      List.mem_append, List.mem_replicate] at hc
    simp at hc ⊢
    tauto

@[simp] theorem loopCount_text (l : DrainLoop) : loopCount l.text = 1 := by
  obtain ⟨direction, drain, fill⟩ := l
  cases direction <;>
    simp [DrainLoop.text, repeated, loopCount, List.count_append, List.count_replicate]

theorem of_loop {l : DrainLoop} {rounds : ℕ} (h : drainCount x l.drainStep = some rounds) :
    Carries (rounds * (l.drain + l.fill + 3) + 2 : ℕ) x (l.filled rounds) l.text := by
  refine ⟨silent_text l, ⟨_, (l.block.code 0).toArray⟩,
    Program.compile_eq_ok_iff.mpr ⟨l.block, l.commands_block, rfl⟩, ?_⟩
  intro inputs s h0 hs
  rw [loopCount_text] at hs ⊢
  have hright := toInt_right hs.room
  have hp : s.pointer ∈ span s.pointer 1 := ⟨Int64.le_refl _, by simp⟩
  have hlt := lt_right hs.room
  have hq : s.pointer + 1 ∈ span s.pointer 1 := ⟨Int64.le_of_lt hlt, by rw [hright]; simp⟩
  obtain ⟨t, ht, rt⟩ : ∃ t, Run _ inputs _ _ s t ∧ _ :=
    l.run (by rw [h0]; exact holds_self _) hp hq (by rw [hs.current]; exact h) (hs.blank _ hlt)
  have hend : t.counter = (l.block.code 0).toArray.size := by
    rw [rt.counter, h0]
    simp [l.size_block]
  refine ⟨_, t, le_rfl, ht.finishes hend, ?_, ?_, ?_, ?_, ?_, rt.output⟩
  · rw [rt.pointer, hright]
    simp
  · rw [rt.current, Function.update_self]
  · intro a hsa hat
    rw [rt.pointer] at hat
    have ha : a = s.pointer := by
      rw [Int64.le_iff_toInt_le] at hsa
      rw [Int64.lt_iff_toInt_lt] at hat
      exact Int64.toInt_inj.mp (by omega)
    rw [rt.cells, Function.update_of_ne (ha ▸ (right_ne s.pointer).symm), ha, Function.update_self]
  · intro a ha
    rw [rt.pointer] at ha
    have hsa := Int64.lt_trans hlt ha
    rw [rt.cells, Function.update_of_ne (Int64.ne_of_lt ha).symm,
      Function.update_of_ne (Int64.ne_of_lt hsa).symm]
    exact hs.blank a hsa
  · intro a ha
    exact ht.cell_eq (not_mem_span_of_lt ha)

end Carries

end Tapecraft
