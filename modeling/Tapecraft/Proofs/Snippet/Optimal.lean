import Mathlib
import Tapecraft.Proofs.Snippet.Drain
import Tapecraft.Proofs.Snippet.Passes

/-! # The entries of the finished table are shortest

The bytes are the vertices of a weighted graph whose edges are the steps that texts are made of:
one up, one down, and the drain loops with sizes up to 39. The length of an entry is the least
weight of a path, over the paths of all lengths. That there is such a path is kept by every pass;
that there is no lighter one follows from what the exit of the passes says about lengths.
-/
namespace Tapecraft

/-- An edge between two bytes, with its weight. The drain loops are given by the least number of
their rounds, as a congruence. -/
inductive Edge : UInt8 → UInt8 → ℕ → Prop
  | up (v : UInt8) : Edge v (v + 1) 1
  | down (v : UInt8) : Edge v (v - 1) 1
  | drainDown {v : UInt8} {d n k : ℕ} (hd : 1 ≤ d ∧ d ≤ 39) (hn : 1 ≤ n ∧ n ≤ 39)
      (hk : IsLeast {k : ℕ | v.toNat ≡ k * d [MOD 256]} k) :
      Edge v (UInt8.ofNat (k * n)) (d + n + 5)
  | drainUp {v : UInt8} {d n k : ℕ} (hd : 1 ≤ d ∧ d ≤ 39) (hn : 1 ≤ n ∧ n ≤ 39)
      (hk : IsLeast {k : ℕ | v.toNat + k * d ≡ 0 [MOD 256]} k) :
      Edge v (-UInt8.ofNat (k * n)) (d + n + 5)

inductive Path : UInt8 → UInt8 → ℕ → Prop
  | nil (v : UInt8) : Path v v 0
  | cons {u v w : UInt8} {a b : ℕ} (he : Edge u v a) (hp : Path v w b) : Path u w (a + b)

theorem Edge.path {u v : UInt8} {a : ℕ} (h : Edge u v a) : Path u v a := .cons h (.nil v)

theorem Path.trans {u v w : UInt8} {a b : ℕ} (h : Path u v a) (h' : Path v w b) :
    Path u w (a + b) := by
  induction h with
  | nil v => rwa [Nat.zero_add]
  | cons he _ ih =>
    rw [Nat.add_assoc]
    exact .cons he (ih h')

theorem Path.ups (v : UInt8) (count : ℕ) : Path v (v + UInt8.ofNat count) count := by
  induction count with
  | zero => simpa using Path.nil v
  | succ count ih =>
    have h := ih.trans (Edge.up (v + UInt8.ofNat count)).path
    rwa [UInt8.add_assoc, show UInt8.ofNat count + 1 = UInt8.ofNat (count + 1) from
      (UInt8.ofNat_add count 1).symm] at h

theorem Path.downs (v : UInt8) (count : ℕ) : Path v (v - UInt8.ofNat count) count := by
  induction count with
  | zero => simpa using Path.nil v
  | succ count ih =>
    have h := ih.trans (Edge.down (v - UInt8.ofNat count)).path
    have hv : v - UInt8.ofNat count - 1 = v - UInt8.ofNat (count + 1) := by
      rw [UInt8.ofNat_add]
      grind
    rwa [hv] at h

theorem modEq_iff_down (v : UInt8) (k d : ℕ) :
    v.toNat ≡ k * d [MOD 256] ↔ v + UInt8.ofNat k * -UInt8.ofNat d = 0 := by
  have h : v + UInt8.ofNat k * -UInt8.ofNat d = 0 ↔ v = UInt8.ofNat (k * d) := by
    rw [UInt8.ofNat_mul]
    constructor <;> intro h <;> grind
  have hlt := v.toNat_lt
  rw [h, ← UInt8.toNat_inj, UInt8.toNat_ofNat', Nat.ModEq]
  omega

theorem modEq_iff_up (v : UInt8) (k d : ℕ) :
    v.toNat + k * d ≡ 0 [MOD 256] ↔ v + UInt8.ofNat k * UInt8.ofNat d = 0 := by
  rw [← UInt8.ofNat_mul, ← UInt8.toNat_inj, UInt8.toNat_add, UInt8.toNat_ofNat', Nat.ModEq]
  simp

theorem edge_iff_step {u v : UInt8} {a : ℕ} :
    Edge u v a ↔ ∃ s : Step, s.Allowed ∧ s.result? u = some v ∧ s.weight = a := by
  constructor
  · intro h
    cases h with
    | up => exact ⟨.increment, trivial, rfl, rfl⟩
    | down => exact ⟨.decrement, trivial, rfl, rfl⟩
    | @drainDown d n k hd hn hk =>
      simp only [modEq_iff_down] at hk
      refine ⟨.loop ⟨.down, d, n⟩, ⟨hd.1, hd.2, hn.1, hn.2⟩, ?_, rfl⟩
      exact Option.map_eq_some_iff.mpr ⟨k, drainCount_eq_some_iff.mpr hk, rfl⟩
    | @drainUp d n k hd hn hk =>
      simp only [modEq_iff_up] at hk
      refine ⟨.loop ⟨.up, d, n⟩, ⟨hd.1, hd.2, hn.1, hn.2⟩, ?_, rfl⟩
      exact Option.map_eq_some_iff.mpr ⟨k, drainCount_eq_some_iff.mpr hk, rfl⟩
  · rintro ⟨s, hs, hv, rfl⟩
    cases s with
    | increment =>
      cases hv
      exact .up u
    | decrement =>
      cases hv
      exact .down u
    | loop l =>
      obtain ⟨direction, d, n⟩ := l
      obtain ⟨hd, hd', hn, hn'⟩ := hs
      obtain ⟨k, hk, rfl⟩ := Option.map_eq_some_iff.mp hv
      rw [drainCount_eq_some_iff] at hk
      cases direction with
      | down =>
        refine .drainDown ⟨hd, hd'⟩ ⟨hn, hn'⟩ ?_
        simp only [modEq_iff_down]
        exact hk
      | up =>
        refine .drainUp ⟨hd, hd'⟩ ⟨hn, hn'⟩ ?_
        simp only [modEq_iff_up]
        exact hk

namespace Table

theorem length_straight (x y : UInt8) :
    (Entry.straight x y).length = min (y - x).toNat (x - y).toNat := by
  have hneg : x - y = -(y - x) := by grind
  have hlt := (y - x).toNat_lt
  rw [hneg, UInt8.toNat_neg, show UInt8.size = 256 from rfl]
  simp only [Entry.straight]
  split
  · dsimp only
    omega
  · dsimp only
    omega

theorem path_straight (x y : UInt8) : Path x y (Entry.straight x y).length := by
  rw [length_straight]
  have hup := Path.ups x (y - x).toNat
  have hdown := Path.downs x (x - y).toNat
  rw [UInt8.ofNat_toNat, show x + (y - x) = y by grind] at hup
  rw [UInt8.ofNat_toNat, show x - (x - y) = y by grind] at hdown
  rcases min_choice (y - x).toNat (x - y).toNat with h | h
  · rwa [h]
  · rwa [h]

def Traced (t : Table) : Prop := t.Every fun x y e => Path x y e.length

theorem Traced.path {t : Table} (h : t.Traced) (x y : UInt8) : Path x y (t.length x y) := h x y

theorem traced_shortest : shortest.get.Traced := by
  refine every_shortest path_straight ?_ ?_
  · intro x y l hl hy
    exact (edge_iff_step.mpr ⟨.loop l, hl, hy, rfl⟩).path
  · intro x z y a b ha hb
    exact ha.trans hb

theorem length_shortest_le_edge {u v : UInt8} {a : ℕ} (h : Edge u v a) :
    shortest.get.length u v ≤ a := by
  obtain ⟨s, hs, hv, rfl⟩ := edge_iff_step.mp h
  have hstraight := length_shortest_le_straight u v
  rw [length_straight] at hstraight
  cases s with
  | increment =>
    cases hv
    rw [show u + 1 - u = 1 by grind] at hstraight
    exact hstraight.trans (min_le_left _ _)
  | decrement =>
    cases hv
    rw [show u - (u - 1) = 1 by grind] at hstraight
    exact hstraight.trans (min_le_right _ _)
  | loop l => exact length_shortest_le_weight hs hv

/-- No path is lighter than the entry between its ends, however long it is. -/
theorem length_shortest_le_path {x y : UInt8} {w : ℕ} (h : Path x y w) :
    shortest.get.length x y ≤ w := by
  induction h with
  | nil v =>
    have hstraight := length_shortest_le_straight v v
    rw [length_straight, show v - v = 0 by grind] at hstraight
    exact hstraight
  | @cons u v w a b he _ ih =>
    have htriangle := triangle_shortest u w v
    have hedge := length_shortest_le_edge he
    omega

/-- Each entry of the finished table is exactly as long as the lightest path between its bytes.
So none is longer than the straight run, and none is longer than a detour over two others. -/
theorem length_isLeast_path (x y : UInt8) :
    IsLeast {w : ℕ | Path x y w} (shortest.get.text x y).length ∧
      (shortest.get.text x y).length ≤ min (y - x).toNat (x - y).toNat ∧
      ∀ z, (shortest.get.text x y).length ≤
        (shortest.get.text x z).length + (shortest.get.text z y).length := by
  simp only [recorded_shortest.length_text]
  refine ⟨⟨traced_shortest.path x y, fun w hw => length_shortest_le_path hw⟩, ?_, ?_⟩
  · rw [← length_straight]
    exact length_shortest_le_straight x y
  · intro z
    exact triangle_shortest x y z

end Table

end Tapecraft
