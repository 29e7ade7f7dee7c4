import Std.Data.HashMap

/-! # The tape

The tape is infinite in both directions and blank at first: every cell holds zero. Only
the cells that were touched, by a read or by a write, are stored, so that their number
can be reported.
-/
namespace Tapecraft

/-- A tape, by its touched cells. -/
structure Tape where
  cells : Std.HashMap Int64 UInt8 := ∅

namespace Tape

/-- What a cell holds. A cell that was never touched holds zero. -/
def cell (t : Tape) (address : Int64) : UInt8 := t.cells.getD address 0

/-- Records that a cell was looked at. Its content does not change. -/
def touch (t : Tape) (address : Int64) : Tape := ⟨t.cells.insertIfNew address 0⟩

def write (t : Tape) (address : Int64) (value : UInt8) : Tape := ⟨t.cells.insert address value⟩

def isTouched (t : Tape) (address : Int64) : Bool := t.cells.contains address

def touched (t : Tape) : Nat := t.cells.size

@[simp] theorem cell_blank (address : Int64) : ({} : Tape).cell address = 0 := by simp [cell]

@[simp] theorem isTouched_blank (address : Int64) : ({} : Tape).isTouched address = false := by
  simp [isTouched]

@[simp] theorem touched_blank : ({} : Tape).touched = 0 := by simp [touched]

@[simp] theorem cell_touch (t : Tape) (address other : Int64) :
    (t.touch address).cell other = t.cell other := by
  simp only [cell, touch, Std.HashMap.getD_insertIfNew]
  split
  · next h =>
    obtain ⟨h, hn⟩ := h
    rw [← eq_of_beq h, Std.HashMap.getD_eq_fallback hn]
  · rfl

theorem cell_write (t : Tape) (address other : Int64) (value : UInt8) :
    (t.write address value).cell other = if address = other then value else t.cell other := by
  simp [cell, write, Std.HashMap.getD_insert]

theorem isTouched_touch (t : Tape) (address other : Int64) :
    (t.touch address).isTouched other = (address == other || t.isTouched other) := by
  simp [isTouched, touch, Std.HashMap.contains_insertIfNew]

theorem isTouched_write (t : Tape) (address other : Int64) (value : UInt8) :
    (t.write address value).isTouched other = (address == other || t.isTouched other) := by
  simp [isTouched, write, Std.HashMap.contains_insert]

theorem touched_touch (t : Tape) (address : Int64) :
    (t.touch address).touched = if t.isTouched address then t.touched else t.touched + 1 := by
  simp [touched, touch, isTouched, Std.HashMap.size_insertIfNew]

theorem touched_write (t : Tape) (address : Int64) (value : UInt8) :
    (t.write address value).touched = if t.isTouched address then t.touched else t.touched + 1 := by
  simp [touched, write, isTouched, Std.HashMap.size_insert]

end Tape

end Tapecraft
