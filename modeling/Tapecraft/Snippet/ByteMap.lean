/-! # Maps from bytes

A total map from the 256 byte values, stored as an array.
-/
namespace Tapecraft

@[specialize] def foldBytes {β : Type} (f : β → UInt8 → β) (start : β) : β :=
  Fin.foldl 256 (fun b x => f b (.ofFin x)) start

/-- A value for each byte. -/
structure ByteMap (α : Type) where
  values : Vector α 256

namespace ByteMap
variable {α : Type}

def get (m : ByteMap α) (x : UInt8) : α := m.values[x.toFin]

def set (m : ByteMap α) (x : UInt8) (a : α) : ByteMap α :=
  ⟨m.values.set x.toFin.val a x.toFin.isLt⟩

def ofFn (f : UInt8 → α) : ByteMap α := ⟨Vector.ofFn fun x => f (.ofFin x)⟩

/-- A measure of the values, added up. -/
def sum (m : ByteMap α) (measure : α → Nat) : Nat :=
  foldBytes (fun total x => total + measure (m.get x)) 0

@[simp] theorem get_ofFn (f : UInt8 → α) (x : UInt8) : (ofFn f).get x = f x := by
  simp [get, ofFn]

theorem get_set (m : ByteMap α) (x y : UInt8) (a : α) :
    (m.set x a).get y = if x = y then a else m.get y := by
  by_cases h : x = y
  · subst h
    simp [get, set]
  · have hne : x.toNat ≠ y.toNat := fun he => h (UInt8.toNat_inj.mp he)
    simp [get, set, h, hne]

@[ext] theorem ext {m n : ByteMap α} (h : ∀ x, m.get x = n.get x) : m = n := by
  obtain ⟨m⟩ := m
  obtain ⟨n⟩ := n
  congr 1
  apply Vector.ext
  intro i hi
  simpa [get] using h (.ofFin ⟨i, hi⟩)

end ByteMap

end Tapecraft
