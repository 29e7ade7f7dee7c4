import Mathlib
import Tapecraft.Proofs.Snippet.Optimal
import Tapecraft.Proofs.Synthesis.RoundTrip
import Tapecraft.Synthesis.Plan

/-! # Synthesised programs are shortest plans

Every entry of the finished table is the text of allowed steps, so a synthesised program is the
text of a plan. That no plan is shorter is shown move by move: whatever a plan does first, it
saves no more than it costs on the way to the byte that it prints next. A plan may go to a fresh
cell and drain cells as often as it likes between two bytes that it prints.
-/
namespace Tapecraft

namespace Step

theorem follow?_append (x : UInt8) (a b : List Step) :
    follow? x (a ++ b) = (follow? x a).bind fun y => follow? y b := List.foldlM_append

theorem texts_append (a b : List Step) : texts (a ++ b) = texts a ++ texts b := by
  rw [texts, List.map_append, String.join_append]
  rfl

theorem follow?_replicate {s : Step} {delta : UInt8} (h : ∀ x, s.result? x = some (x + delta))
    (count : ℕ) (x : UInt8) :
    follow? x (List.replicate count s) = some (x + UInt8.ofNat count * delta) := by
  induction count generalizing x with
  | zero => simp [follow?]
  | succ count ih =>
    have hstep : follow? x (List.replicate (count + 1) s) =
        (s.result? x).bind fun y => follow? y (List.replicate count s) := by
      rw [List.replicate_succ]
      exact List.foldlM_cons
    have hsum : x + delta + UInt8.ofNat count * delta = x + UInt8.ofNat (count + 1) * delta := by
      rw [UInt8.ofNat_add]
      grind
    rw [hstep, h, ← hsum]
    exact ih (x + delta)

theorem texts_replicate {s : Step} {c : Char} (h : s.text.toList = [c]) (count : ℕ) :
    texts (List.replicate count s) = repeated count c := by
  apply String.toList_inj.mp
  rw [texts, List.map_replicate, String.toList_join, repeated, String.toList_ofList]
  induction count with
  | zero => rfl
  | succ count ih =>
    rw [List.replicate_succ, List.flatMap_cons, ih, h]
    rfl

/-- The text is that of allowed steps which lead from one byte to another. -/
def Spells (x y : UInt8) (text : String) : Prop :=
  ∃ steps : List Step, (∀ s ∈ steps, s.Allowed) ∧ follow? x steps = some y ∧ texts steps = text

theorem Spells.of_repeated {s : Step} {c : Char} {delta : UInt8} (hs : s.Allowed)
    (hc : s.text.toList = [c]) (hresult : ∀ v, s.result? v = some (v + delta)) {count : ℕ}
    {x y : UInt8} (hy : x + UInt8.ofNat count * delta = y) : Spells x y (repeated count c) := by
  refine ⟨List.replicate count s, ?_, ?_, texts_replicate hc count⟩
  · intro s' hs'
    rw [List.eq_of_mem_replicate hs']
    exact hs
  · rw [follow?_replicate hresult, hy]

theorem Spells.of_loop {l : DrainLoop} (hl : (loop l).Allowed) {x y : UInt8}
    (hy : l.result? x = some y) : Spells x y l.text := by
  refine ⟨[loop l], ?_, ?_, ?_⟩
  · intro s hs
    rw [List.mem_singleton.mp hs]
    exact hl
  · rw [follow?, List.foldlM_cons]
    simp [result?, hy]
  · rw [texts, List.map_singleton, String.join_cons, String.join_nil, String.append_empty]
    rfl

theorem Spells.join {x z y : UInt8} {a b : String} (ha : Spells x z a) (hb : Spells z y b) :
    Spells x y (a ++ b) := by
  obtain ⟨first, hfirst, hz, rfl⟩ := ha
  obtain ⟨second, hsecond, hy, rfl⟩ := hb
  refine ⟨first ++ second, ?_, ?_, texts_append first second⟩
  · intro s hs
    rcases List.mem_append.mp hs with hs | hs
    · exact hfirst s hs
    · exact hsecond s hs
  · rw [follow?_append, hz]
    exact hy

theorem Spells.of_straight (x y : UInt8) : Spells x y (Entry.straight x y).text := by
  simp only [Entry.straight]
  split
  · refine of_repeated (s := increment) trivial rfl (fun v => rfl) ?_
    rw [UInt8.ofNat_toNat]
    grind
  · refine of_repeated (s := decrement) trivial rfl
      (fun v => congrArg some (UInt8.sub_eq_add_neg v 1)) ?_
    rw [Carries.ofNat_turn]
    grind

end Step

namespace Table

def Spelled (t : Table) : Prop := t.Every fun x y e => Step.Spells x y e.text

theorem spelled_shortest : shortest.get.Spelled := by
  refine every_shortest Step.Spells.of_straight ?_ ?_
  · intro x y l hl hy
    exact Step.Spells.of_loop hl hy
  · intro x z y a b ha hb
    exact ha.join hb

/-- What a table must be for its ways to be shortest plans: the entries are texts of steps, and
their lengths are the least weights of paths. -/
structure Tight (t : Table) : Prop where
  spelled : t.Spelled
  recorded : t.Recorded
  traced : t.Traced
  least : ∀ {x y : UInt8} {w : ℕ}, Path x y w → t.length x y ≤ w

theorem tight_shortest : shortest.get.Tight where
  spelled := spelled_shortest
  recorded := recorded_shortest
  traced := traced_shortest
  least := length_shortest_le_path

theorem Tight.length_self {t : Table} (h : t.Tight) (x : UInt8) : t.length x x = 0 :=
  Nat.le_zero.mp (h.least (.nil x))

theorem Tight.length_le_step {t : Table} (h : t.Tight) {x x' : UInt8} {s : Step}
    (hs : s.Allowed) (hx : s.result? x = some x') (y : UInt8) :
    t.length x y ≤ s.weight + t.length x' y := by
  have hedge : Edge x x' s.weight := edge_iff_step.mpr ⟨s, hs, hx, rfl⟩
  exact h.least (.cons hedge (h.traced.path x' y))

end Table

namespace Synthesis
variable {table : Table}

namespace Plan

def Prints (plan : Plan) (text : String) : Prop :=
  ∃ bytes, plan.printed? 0 = some bytes ∧ bytes.map Char.ofUInt8 = text.toList

theorem text_cons (m : Move) (rest : Plan) : text (m :: rest) = m.text ++ text rest :=
  String.join_cons

theorem text_append (a b : Plan) : (a ++ b : Plan).text = a.text ++ b.text := by
  rw [text, List.map_append, String.join_append]
  rfl

theorem text_steps (steps : List Step) : text (steps.map .step) = Step.texts steps := by
  rw [text, List.map_map]
  rfl

theorem printed?_steps (steps : List Step) (rest : Plan) (x : UInt8) :
    printed? (steps.map .step ++ rest) x = (Step.follow? x steps).bind (printed? rest) := by
  induction steps generalizing x with
  | nil => rfl
  | cons s steps ih =>
    rw [Step.follow?, List.foldlM_cons, List.map_cons, List.cons_append, printed?]
    cases hs : s.result? x with
    | none => rfl
    | some y => exact ih y

theorem allowed_append {a b : Plan} (ha : a.Allowed) (hb : b.Allowed) : Allowed (a ++ b) := by
  intro s hs
  rcases List.mem_append.mp hs with hs | hs
  · exact ha s hs
  · exact hb s hs

theorem allowed_steps {steps : List Step} (h : ∀ s ∈ steps, s.Allowed) :
    Allowed (steps.map .step) := by
  intro s hs
  obtain ⟨s', hs', heq⟩ := List.mem_map.mp hs
  cases heq
  exact h s hs'

theorem allowed_cons {m : Move} {rest : Plan} (hm : ∀ s, m ≠ .step s) (h : rest.Allowed) :
    Allowed (m :: rest) := by
  intro s hs
  rcases List.mem_cons.mp hs with heq | hs
  · exact absurd heq.symm (hm s)
  · exact h s hs

theorem Allowed.tail {m : Move} {rest : Plan} (h : Allowed (m :: rest)) : rest.Allowed :=
  fun s hs => h s (List.mem_cons_of_mem _ hs)

end Plan

theorem exists_plan_approach (h : table.Tight) (last target : UInt8) :
    ∃ plan : Plan, plan.Allowed ∧ plan.text = approach table last target ∧
      ∀ rest : Plan, Plan.printed? (plan ++ rest) last = rest.printed? target := by
  unfold approach
  split
  · obtain ⟨steps, hs, htarget, htext⟩ := h.spelled last target
    refine ⟨steps.map .step, Plan.allowed_steps hs, (Plan.text_steps steps).trans htext, ?_⟩
    intro rest
    rw [Plan.printed?_steps, htarget]
    rfl
  · obtain ⟨steps, hs, htarget, htext⟩ := h.spelled 0 target
    refine ⟨.fresh :: steps.map .step, ?_, ?_, ?_⟩
    · exact Plan.allowed_cons (by simp) (Plan.allowed_steps hs)
    · rw [Plan.text_cons, Plan.text_steps, htext]
      rfl
    · intro rest
      rw [List.cons_append, Plan.printed?, Plan.printed?_steps, htarget]
      rfl

/-- How many characters it takes to print bytes by the ways of the table. -/
def printingLength (table : Table) : UInt8 → List UInt8 → ℕ
  | _, [] => 0
  | last, target :: rest =>
    (approach table last target).length + 1 + printingLength table target rest

theorem length_approach (h : table.Tight) (last target : UInt8) :
    (approach table last target).length =
      min (table.length last target) (table.length 0 target + 1) := by
  unfold approach
  split
  · next hle => rw [h.recorded.length_text, Nat.min_eq_left hle]
  · next hlt =>
    rw [String.length_append, h.recorded.length_text, show ">".length = 1 from rfl]
    omega

theorem length_approach_self (h : table.Tight) (x : UInt8) :
    (approach table x x).length = 0 := by
  rw [length_approach h, h.length_self]
  omega

theorem length_approach_le_step (h : table.Tight) {x x' : UInt8} {s : Step} (hs : s.Allowed)
    (hx : s.result? x = some x') (target : UInt8) :
    (approach table x target).length ≤ s.weight + (approach table x' target).length := by
  have hstep := h.length_le_step hs hx target
  rw [length_approach h, length_approach h]
  omega

theorem length_approach_le_fresh (h : table.Tight) (x target : UInt8) :
    (approach table x target).length ≤ 1 + (approach table 0 target).length := by
  rw [length_approach h, length_approach h]
  omega

/-- A move that brings the next byte no nearer than it costs saves nothing on all bytes. -/
theorem printingLength_le_of_approach {x x' : UInt8} {cost : ℕ}
    (h : ∀ target, (approach table x target).length ≤ cost + (approach table x' target).length)
    (bytes : List UInt8) : printingLength table x bytes ≤ cost + printingLength table x' bytes := by
  cases bytes with
  | nil => exact Nat.zero_le _
  | cons target rest =>
    have htarget := h target
    simp only [printingLength]
    omega

/-- No plan prints bytes with fewer characters. -/
theorem printingLength_le_of_plan (h : table.Tight) {plan : Plan} (hplan : plan.Allowed)
    {x : UInt8} {bytes : List UInt8} (hbytes : plan.printed? x = some bytes) :
    printingLength table x bytes ≤ plan.text.length := by
  -- The plan may start on any byte, since its first move changes the one it goes on from.
  induction plan generalizing x bytes with
  | nil =>
    cases hbytes
    exact Nat.zero_le _
  | cons m rest ih =>
    rw [Plan.text_cons, String.length_append]
    cases m with
    | step s =>
      obtain ⟨x', hx', hrest⟩ := Option.bind_eq_some_iff.mp hbytes
      have hle := ih hplan.tail hrest
      have hmove := printingLength_le_of_approach
        (length_approach_le_step h (hplan s List.mem_cons_self) hx') bytes
      rw [Move.text, Step.length_text]
      omega
    | fresh =>
      have hle := ih hplan.tail hbytes
      have hmove := printingLength_le_of_approach (length_approach_le_fresh h x) bytes
      rw [Move.text, show ">".length = 1 from rfl]
      omega
    | print =>
      obtain ⟨rest', hrest, heq⟩ := Option.bind_eq_some_iff.mp hbytes
      cases heq
      have hle := ih hplan.tail hrest
      rw [printingLength, length_approach_self h, Move.text, show ".".length = 1 from rfl]
      omega

/-- The characters added to a program for further text are those of a plan that prints it, and
as many as the ways of the table take. -/
theorem extend_eq_plan (h : table.Tight) {chars : List Char} (hchars : ∀ c ∈ chars, c.toNat ≤ 255)
    (position : ℕ) (last : UInt8) (program : String) :
    ∃ (plan : Plan) (bytes : List UInt8), plan.Allowed ∧ plan.printed? last = some bytes ∧
      bytes.map Char.ofUInt8 = chars ∧ plan.text.length = printingLength table last bytes ∧
      extend table chars position last program = .ok (program ++ plan.text) := by
  induction chars generalizing position last program with
  | nil =>
    refine ⟨[], [], ?_, rfl, rfl, rfl, ?_⟩
    · intro s hs
      cases hs
    · rw [extend, show Plan.text [] = "" from rfl, String.append_empty]
  | cons c chars ih =>
    obtain ⟨target, hcell, htarget⟩ := cellOf?_eq_some (hchars c List.mem_cons_self)
    obtain ⟨way, hway, htext, hprinted⟩ := exists_plan_approach h last target
    obtain ⟨plan, bytes, hplan, hbytes, hmap, hlength, hextend⟩ :=
      ih (fun c' hc' => hchars c' (List.mem_cons_of_mem _ hc')) (position + 1) target
        ((program ++ approach table last target).push '.')
    have hwhole : (way ++ .print :: plan : Plan).text =
        approach table last target ++ ("." ++ plan.text) := by
      rw [Plan.text_append, htext, Plan.text_cons]
      rfl
    refine ⟨way ++ .print :: plan, target :: bytes, ?_, ?_, ?_, ?_, ?_⟩
    · exact Plan.allowed_append hway (Plan.allowed_cons (by simp) hplan)
    · rw [hprinted, Plan.printed?, hbytes]
      rfl
    · rw [List.map_cons, htarget, hmap]
    · rw [hwhole, String.length_append, String.length_append, hlength, printingLength,
        show ".".length = 1 from rfl, Nat.add_assoc]
    · have hpush : (program ++ approach table last target).push '.' ++ plan.text =
          program ++ (approach table last target ++ ("." ++ plan.text)) := by
        rw [String.push_eq_append, String.append_assoc, String.append_assoc]
        rfl
      rw [extend, hcell, hwhole, ← hpush]
      exact hextend

theorem ofUInt8_injective : Function.Injective Char.ofUInt8 := by
  intro x y h
  have hval : x.toUInt32 = y.toUInt32 := congrArg Char.val h
  exact UInt8.toUInt32_inj.mp hval

/-- The program of a text below U+0100 is the text of a plan that prints it, and no plan that
prints it has fewer characters. -/
theorem program_isLeast_plan {text : String} (h : ∀ c ∈ text.toList, c.toNat ≤ 255) :
    ∃ source, program Table.shortest.get text = .ok source ∧
      (∃ plan : Plan, plan.Allowed ∧ plan.Prints text ∧ plan.text = source) ∧
      ∀ plan : Plan, plan.Allowed → plan.Prints text → source.length ≤ plan.text.length := by
  obtain ⟨plan, bytes, hplan, hbytes, hmap, hlength, hextend⟩ :=
    extend_eq_plan Table.tight_shortest h 0 0 ""
  rw [String.empty_append] at hextend
  refine ⟨plan.text, hextend, ⟨plan, hplan, ⟨bytes, hbytes, hmap⟩, rfl⟩, ?_⟩
  rintro other hother ⟨bytes', hbytes', hmap'⟩
  have hsame : bytes' = bytes :=
    List.map_injective_iff.mpr ofUInt8_injective (hmap'.trans hmap.symm)
  rw [hlength, ← hsame]
  exact printingLength_le_of_plan Table.tight_shortest hother hbytes'

theorem program_isLeast_plan_letter :
    ∃ source, program Table.shortest.get "A" = .ok source ∧ source.length ≤ 25 := by
  have h : ∀ c ∈ "A".toList, c.toNat ≤ 255 := by simp
  obtain ⟨source, hsource, -, hleast⟩ := program_isLeast_plan h
  let plan : Plan := List.replicate 5 (.step .increment) ++ [.step (.loop ⟨.down, 1, 13⟩), .print]
  have hallowed : plan.Allowed := by
    intro s hs
    simp only [plan, List.mem_append, List.mem_replicate, List.mem_cons, Move.step.injEq,
      reduceCtorEq, List.not_mem_nil, or_false] at hs
    rcases hs with ⟨-, rfl⟩ | rfl
    · trivial
    · exact ⟨by decide, by decide, by decide, by decide⟩
  have hprints : plan.Prints "A" := ⟨[65], by decide, by decide⟩
  have hlength : plan.text.length = 25 := by decide
  exact ⟨source, hsource, hlength ▸ hleast plan hallowed hprints⟩

end Synthesis

end Tapecraft
