import Tapecraft.Snippet.ByteMap
import Tapecraft.Snippet.Step

/-! # The table of snippets

A snippet for two bytes is program text that, started on a cell that holds the first,
ends on a cell that holds the second. The table starts from the straight runs of one
command, offers every drain loop as a replacement, and joins two snippets wherever the
detour is shorter. Both are repeated until the total length no longer falls. An entry is
replaced only by a strictly shorter text, so among texts of equal length the one found
first stays.
-/
namespace Tapecraft

/-- A snippet with its length, which is what candidates are compared by. -/
structure Entry where
  text : String
  length : Nat
deriving DecidableEq, Repr

namespace Entry

def ofLoop (l : DrainLoop) : Entry := ⟨l.text, l.weight⟩

def join (a b : Entry) : Entry := ⟨a.text ++ b.text, a.length + b.length⟩

/-- The shortest run of a single command from one byte to another. Of the two ways
around, halfway goes up. -/
def straight (x y : UInt8) : Entry :=
  let rise := (y - x).toNat
  if rise ≤ 128 then ⟨repeated rise '+', rise⟩
  else ⟨repeated (256 - rise) '-', 256 - rise⟩

end Entry

abbrev Row := ByteMap Entry

structure Table where
  rows : ByteMap Row

namespace Table

def ofFn (f : UInt8 → UInt8 → Entry) : Table := ⟨.ofFn fun x => .ofFn (f x)⟩

def get (t : Table) (x y : UInt8) : Entry := (t.rows.get x).get y

@[simp] theorem get_ofFn (f : UInt8 → UInt8 → Entry) (x y : UInt8) :
    (ofFn f).get x y = f x y := by
  simp [get, ofFn]

def text (t : Table) (x y : UInt8) : String := (t.get x y).text

def length (t : Table) (x y : UInt8) : Nat := (t.get x y).length

def total (t : Table) : Nat := t.rows.sum fun row => row.sum Entry.length

def baseline : Table := .ofFn Entry.straight

def stepSizes : List Nat := List.range' 1 Step.maxSize

/-- The drain loops that end when started on a byte, each with the byte it leads to, in
the order in which they are tried. -/
def offers (x : UInt8) : List (UInt8 × DrainLoop) :=
  stepSizes.flatMap fun drain =>
    let down := drainCount x (-UInt8.ofNat drain)
    let up := drainCount x (UInt8.ofNat drain)
    stepSizes.flatMap fun fill =>
      let falling : DrainLoop := ⟨.down, drain, fill⟩
      let rising : DrainLoop := ⟨.up, drain, fill⟩
      (down.map fun rounds => (falling.filled rounds, falling)).toList ++
        (up.map fun rounds => (rising.filled rounds, rising)).toList

def offer (row : Row) (candidate : UInt8 × DrainLoop) : Row :=
  if candidate.2.weight < (row.get candidate.1).length then
    row.set candidate.1 (.ofLoop candidate.2)
  else row

def offerLoops (t : Table) : Table := ⟨.ofFn fun x => (offers x).foldl offer (t.rows.get x)⟩

/-- The byte over which the detour is shortest, if it is shorter than the direct way. The
smallest such byte is taken. The lengths of the two parts of a detour are given by the
byte between them. -/
def shortcut (first second : ByteMap Nat) (direct : Nat) : Option UInt8 :=
  let best := foldBytes (fun (best : Nat × Option UInt8) z =>
    let detour := first.get z + second.get z
    if detour < best.1 then (detour, some z) else best) (direct, none)
  best.2

/-- Replaces each entry by its best detour, all judged by the same table. -/
def relax (t : Table) : Table :=
  let rows : ByteMap (ByteMap Nat) := .ofFn fun x => .ofFn (t.length x)
  let columns : ByteMap (ByteMap Nat) := .ofFn fun y => .ofFn (t.length · y)
  .ofFn fun x y =>
    match shortcut (rows.get x) (columns.get y) (t.length x y) with
    | none => t.get x y
    | some z => (t.get x z).join (t.get z y)

def close (t : Table) : Table :=
  let next := t.relax
  if next.total < t.total then close next else next
termination_by t.total

def improve (t : Table) : Table :=
  let next := t.offerLoops.close
  if next.total < t.total then improve next else next
termination_by t.total

/-- The finished table. It is computed when it is first asked for. -/
def shortest : Thunk Table := .mk fun _ => baseline.improve

theorem get_thunk {α : Type} (f : Unit → α) : (Thunk.mk f).get = f () := rfl

theorem get_shortest : shortest.get = baseline.improve := by
  unfold shortest
  rw [get_thunk]

end Table

end Tapecraft
