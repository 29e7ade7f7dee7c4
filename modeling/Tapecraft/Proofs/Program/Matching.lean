import Mathlib
import Tapecraft.Proofs.Program.Layout

/-! # Jumps lead to the matching brackets

The bracket that closes a loop is the first one behind which as many loops are closed as were
opened since the loop began. This pairing is read off the commands alone, by counting. It is
the pairing of the loops of a block, whose code jumps from each bracket behind its partner, and
its pairs never cross.
-/
namespace Tapecraft

def Balanced (commands : List Command) : Prop :=
  commands.count .openLoop = commands.count .closeLoop

/-- The loop opened at index `i` is closed at index `j`: no sooner are the commands from `i` on
balanced. -/
def Matching (commands : List Command) (i j : ℕ) : Prop :=
  commands[i]? = some .openLoop ∧
    IsLeast {k | i < k ∧ k < commands.length ∧ Balanced ((commands.drop i).take (k + 1 - i))} j

instance (commands : List Command) : Decidable (Balanced commands) :=
  inferInstanceAs (Decidable (_ = _))

instance (commands : List Command) (i j : ℕ) : Decidable (Matching commands i j) :=
  decidable_of_iff
    (commands[i]? = some .openLoop ∧
      (i < j ∧ j < commands.length ∧ Balanced ((commands.drop i).take (j + 1 - i))) ∧
      ∀ k < j, ¬ (i < k ∧ Balanced ((commands.drop i).take (k + 1 - i))))
    (by
      refine and_congr_right fun _ => and_congr_right fun hj => ⟨?_, ?_⟩
      · rintro h k ⟨hik, -, hbalanced⟩
        exact Nat.le_of_not_lt fun hkj => h k hkj ⟨hik, hbalanced⟩
      · rintro h k hkj ⟨hik, hbalanced⟩
        exact absurd (h ⟨hik, hkj.trans hj.2.1, hbalanced⟩) (Nat.not_le.mpr hkj))

/-- The instructions a command may become. A bracket becomes a jump with some target. -/
inductive Translates : Command → Instruction → Prop
  | right : Translates (.action .right) (.move 1)
  | left : Translates (.action .left) (.move (-1))
  | increment : Translates (.action .increment) (.add 1)
  | decrement : Translates (.action .decrement) (.add (-1))
  | print : Translates (.action .print) .print
  | read : Translates (.action .read) .read
  | openLoop (target : ℕ) : Translates .openLoop (.jumpIfZero target)
  | closeLoop (target : ℕ) : Translates .closeLoop (.jumpIfNonzero target)

namespace Matching
variable {commands : List Command} {i j k l n : ℕ}

def height (commands : List Command) (n : ℕ) : ℤ :=
  (commands.take n).count .openLoop - (commands.take n).count .closeLoop

theorem balanced_iff_height (h : i ≤ n) :
    Balanced ((commands.drop i).take (n - i)) ↔ height commands n = height commands i := by
  have hsplit : commands.take n = commands.take i ++ (commands.drop i).take (n - i) := by
    rw [← List.take_add, Nat.add_sub_of_le h]
  unfold Balanced height
  rw [hsplit, List.count_append, List.count_append]
  omega

theorem height_succ (commands : List Command) (n : ℕ) :
    height commands (n + 1) = height commands n +
      (commands[n]?.toList.count .openLoop - commands[n]?.toList.count .closeLoop) := by
  unfold height
  rw [List.take_add_one, List.count_append, List.count_append]
  omega

theorem height_le_succ (commands : List Command) (n : ℕ) :
    height commands n ≤ height commands (n + 1) + 1 := by
  have hone : commands[n]?.toList.count .closeLoop ≤ 1 :=
    List.count_le_length.trans (by cases commands[n]? <;> simp)
  have hstep := height_succ commands n
  omega

theorem height_close (h : Matching commands i j) :
    height commands (j + 1) = height commands i := by
  obtain ⟨-, ⟨hlt, -, hbalanced⟩, -⟩ := h
  exact (balanced_iff_height (by omega)).mp hbalanced

/-- Between the two brackets of a loop more loops are open than before it. -/
theorem height_lt (h : Matching commands i j) (hin : i < n) (hnj : n ≤ j) :
    height commands i < height commands n := by
  obtain ⟨hopen, ⟨-, hlen, -⟩, hleast⟩ := h
  induction n, hin using Nat.le_induction with
  | base => simp [height_succ, hopen]
  | succ n hin ih =>
    have hprev := ih (by omega)
    have hdrop := height_le_succ commands n
    have hne : height commands (n + 1) ≠ height commands i := by
      intro heq
      have hbalanced := (balanced_iff_height (by omega)).mpr heq
      have hjn : j ≤ n := hleast ⟨hin, by omega, hbalanced⟩
      omega
    omega

theorem nested (h : Matching commands i j) (h' : Matching commands k l) (hik : i < k)
    (hkj : k < j) : l < j := by
  by_contra hjl
  have hbegin := h.height_lt hik hkj.le
  have hend := h.height_close
  have hend' := h'.height_close
  rcases Nat.eq_or_lt_of_le (Nat.le_of_not_lt hjl) with rfl | hlt
  · omega
  · have hinside : height commands k < height commands (j + 1) :=
      h'.height_lt (Nat.lt_succ_of_lt hkj) hlt
    omega

end Matching

namespace Block

theorem balanced_commands (b : Block) : Balanced b.commands := by
  unfold Balanced
  induction b with
  | done => rfl
  | act a rest ih => simpa [commands] using ih
  | loop body rest ihb ihr =>
    simp only [commands, List.cons_append, List.count_append, List.count_cons_self, ne_eq,
      reduceCtorEq, not_false_eq_true, List.count_cons_of_ne, ihb, ihr]
    omega

theorem count_closeLoop_take_le (b : Block) (n : ℕ) :
    (b.commands.take n).count .closeLoop ≤ (b.commands.take n).count .openLoop := by
  induction b generalizing n with
  | done => simp [commands]
  | act a rest ih =>
    cases n with
    | zero => simp
    | succ n => simpa [commands] using ih n
  | loop body rest ihb ihr =>
    cases n with
    | zero => simp
    | succ n =>
      have hbody := ihb n
      simp only [commands, List.cons_append, List.take_succ_cons, List.take_append]
      cases n - body.commands.length with
      | zero =>
        simp only [List.take_zero, List.append_nil, List.count_cons_self, ne_eq, reduceCtorEq,
          not_false_eq_true, List.count_cons_of_ne]
        omega
      | succ m =>
        have hrest := ihr m
        simp only [List.take_succ_cons, List.count_append, List.count_cons_self, ne_eq,
          reduceCtorEq, not_false_eq_true, List.count_cons_of_ne]
        omega

/-- The block has a loop with the given body, whose opening bracket is the command at index `i`. -/
inductive HasLoop : Block → ℕ → Block → Prop
  | here (body rest : Block) : HasLoop (loop body rest) 0 body
  | behindAct {a : Action} {rest inner : Block} {i : ℕ} (h : HasLoop rest i inner) :
      HasLoop (act a rest) (i + 1) inner
  | inside {body rest inner : Block} {i : ℕ} (h : HasLoop body i inner) :
      HasLoop (loop body rest) (i + 1) inner
  | behindLoop {body rest inner : Block} {i : ℕ} (h : HasLoop rest i inner) :
      HasLoop (loop body rest) (i + (body.size + 2)) inner

theorem HasLoop.split {b inner : Block} {i : ℕ} (h : b.HasLoop i inner) :
    ∃ front back, front.length = i ∧
      b.commands = front ++ (.openLoop :: (inner.commands ++ .closeLoop :: back)) := by
  induction h with
  | here body rest => exact ⟨[], rest.commands, rfl, rfl⟩
  | @behindAct a rest inner i _ ih =>
    obtain ⟨front, back, rfl, hcommands⟩ := ih
    exact ⟨.action a :: front, back, rfl, by simp [commands, hcommands]⟩
  | @inside body rest inner i _ ih =>
    obtain ⟨front, back, rfl, hcommands⟩ := ih
    exact ⟨.openLoop :: front, back ++ .closeLoop :: rest.commands, rfl, by
      simp [commands, hcommands]⟩
  | @behindLoop body rest inner i _ ih =>
    obtain ⟨front, back, rfl, hcommands⟩ := ih
    refine ⟨.openLoop :: (body.commands ++ .closeLoop :: front), back, ?_, ?_⟩
    · simp only [List.length_cons, List.length_append, length_commands]
      omega
    · simp [commands, hcommands]

theorem HasLoop.holds {b inner : Block} {i : ℕ} (h : b.HasLoop i inner)
    {code : Array Instruction} {start : ℕ} (hc : Holds code start (b.code start)) :
    Holds code (start + i) ((loop inner done).code (start + i)) := by
  induction h generalizing start with
  | here body rest =>
    obtain ⟨hopen, hc⟩ := hc
    obtain ⟨hbody, hclose, -⟩ := holds_append.mp hc
    exact ⟨hopen, holds_append.mpr ⟨hbody, hclose, trivial⟩⟩
  | @behindAct a rest inner i _ ih =>
    have hrest := ih hc.2
    rwa [show start + 1 + i = start + (i + 1) by omega] at hrest
  | @inside body rest inner i _ ih =>
    have hbody := ih (holds_append.mp hc.2).1
    rwa [show start + 1 + i = start + (i + 1) by omega] at hbody
  | @behindLoop body rest inner i _ ih =>
    obtain ⟨-, -, hrest⟩ := holds_append.mp hc.2
    rw [length_code, show start + 1 + body.size + 1 = start + body.size + 2 by omega] at hrest
    have hinner := ih hrest
    rwa [show start + body.size + 2 + i = start + (i + (body.size + 2)) by omega] at hinner

theorem balanced_take_loop (inner : Block) (back : List Command) :
    Balanced ((.openLoop :: (inner.commands ++ .closeLoop :: back)).take (inner.size + 2)) := by
  have hinner := inner.balanced_commands
  have htake : (.openLoop :: (inner.commands ++ .closeLoop :: back)).take (inner.size + 2) =
      .openLoop :: (inner.commands ++ [.closeLoop]) := by
    rw [← length_commands, List.take_succ_cons, List.take_length_add_append, List.take_succ_cons,
      List.take_zero]
  unfold Balanced at hinner ⊢
  rw [htake]
  simp [hinner]

/-- Before its end a loop is not balanced: nothing in its body makes up for the bracket at the
front. -/
theorem not_balanced_take_loop (inner : Block) (back : List Command) {n : ℕ}
    (hn : n ≤ inner.size) :
    ¬ Balanced ((.openLoop :: (inner.commands ++ .closeLoop :: back)).take (n + 1)) := by
  have hle := inner.count_closeLoop_take_le n
  rw [List.take_succ_cons, List.take_append_of_le_length (by rwa [length_commands])]
  unfold Balanced
  simp only [List.count_cons_self, ne_eq, reduceCtorEq, not_false_eq_true, List.count_cons_of_ne]
  omega

theorem HasLoop.matching {b inner : Block} {i : ℕ} (h : b.HasLoop i inner) :
    Matching b.commands i (i + inner.size + 1) := by
  obtain ⟨front, back, rfl, hcommands⟩ := h.split
  have hlength : front.length + inner.size + 1 < b.commands.length := by
    simp only [hcommands, List.length_append, List.length_cons, length_commands]
    omega
  refine ⟨by simp [hcommands], ⟨by omega, hlength, ?_⟩, ?_⟩
  · rw [hcommands, List.drop_left,
      show front.length + inner.size + 1 + 1 - front.length = inner.size + 2 by omega]
    exact balanced_take_loop inner back
  · rintro k ⟨hlt, -, hbalanced⟩
    by_contra hk
    rw [hcommands, List.drop_left,
      show k + 1 - front.length = k - front.length + 1 by omega] at hbalanced
    exact not_balanced_take_loop inner back (by omega) hbalanced

def IsBracket (k : ℕ) (inner : Block) (c : Command) (i : ℕ) : Prop :=
  c = .openLoop ∧ i = k ∨ c = .closeLoop ∧ i = k + inner.size + 1

theorem IsBracket.add {k : ℕ} {inner : Block} {c : Command} {i : ℕ}
    (h : IsBracket k inner c i) (offset : ℕ) : IsBracket (k + offset) inner c (i + offset) := by
  rcases h with ⟨rfl, rfl⟩ | ⟨rfl, rfl⟩
  · exact Or.inl ⟨rfl, rfl⟩
  · exact Or.inr ⟨rfl, by omega⟩

theorem exists_hasLoop {b : Block} {c : Command} {i : ℕ} (h : b.commands[i]? = some c)
    (hc : ∀ a, c ≠ .action a) : ∃ k inner, b.HasLoop k inner ∧ IsBracket k inner c i := by
  induction b generalizing i with
  | done => simp [commands] at h
  | act a rest ih =>
    cases i with
    | zero =>
      simp only [commands, List.getElem?_cons_zero, Option.some.injEq] at h
      exact absurd h.symm (hc a)
    | succ i =>
      obtain ⟨k, inner, hloop, hi⟩ := ih (i := i) (by simpa [commands] using h)
      exact ⟨k + 1, inner, .behindAct hloop, hi.add 1⟩
  | loop body rest ihb ihr =>
    cases i with
    | zero =>
      simp only [commands, List.cons_append, List.getElem?_cons_zero, Option.some.injEq] at h
      exact ⟨0, body, .here body rest, Or.inl ⟨h.symm, rfl⟩⟩
    | succ i =>
      simp only [commands, List.cons_append, List.getElem?_cons_succ] at h
      rcases Nat.lt_trichotomy i body.size with hlt | rfl | hgt
      · rw [List.getElem?_append_left (by rwa [length_commands])] at h
        obtain ⟨k, inner, hloop, hi⟩ := ihb h
        exact ⟨k + 1, inner, .inside hloop, hi.add 1⟩
      · rw [List.getElem?_append_right (by rw [length_commands])] at h
        simp only [length_commands, Nat.sub_self, List.getElem?_cons_zero,
          Option.some.injEq] at h
        exact ⟨0, body, .here body rest, Or.inr ⟨h.symm, by omega⟩⟩
      · obtain ⟨m, rfl⟩ : ∃ m, i = m + (body.size + 1) := ⟨i - (body.size + 1), by omega⟩
        rw [List.getElem?_append_right (by rw [length_commands]; omega), length_commands,
          show m + (body.size + 1) - body.size = m + 1 by omega, List.getElem?_cons_succ] at h
        obtain ⟨k, inner, hloop, hi⟩ := ihr h
        exact ⟨k + (body.size + 2), inner, .behindLoop hloop, hi.add (body.size + 2)⟩

theorem forall₂_translates (b : Block) (start : ℕ) :
    List.Forall₂ Translates b.commands (b.code start) := by
  induction b generalizing start with
  | done => exact .nil
  | act a rest ih =>
    refine .cons ?_ (ih (start + 1))
    cases a <;> constructor
  | loop body rest ihb ihr =>
    refine .cons (.openLoop _) ?_
    exact List.rel_append (ihb _) (.cons (.closeLoop _) (ihr _))

theorem exists_translates {b : Block} {start i : ℕ} {x : Instruction}
    (h : (b.code start)[i]? = some x) : ∃ c, b.commands[i]? = some c ∧ Translates c x := by
  obtain ⟨hlt, rfl⟩ := List.getElem?_eq_some_iff.mp h
  have hlt' : i < b.commands.length := by simpa using hlt
  exact ⟨_, List.getElem?_eq_getElem hlt', (b.forall₂_translates start).get hlt' hlt⟩

theorem plain_of_mem_code {b : Block} {start : ℕ} {x : Instruction} (h : x ∈ b.code start) :
    x ≠ .halt ∧ (∀ d, x = .move d → d = 1 ∨ d = -1) ∧ ∀ d, x = .add d → d = 1 ∨ d = -1 := by
  obtain ⟨i, hi⟩ := List.mem_iff_getElem?.mp h
  obtain ⟨c, -, ht⟩ := exists_translates hi
  cases ht <;> simp

/-- The code of a block jumps from each bracket behind its partner. -/
theorem code_of_matching {b : Block} {i j : ℕ} (h : Matching b.commands i j) :
    (b.code 0)[i]? = some (.jumpIfZero (j + 1)) ∧
      (b.code 0)[j]? = some (.jumpIfNonzero (i + 1)) := by
  obtain ⟨k, inner, hloop, hbracket⟩ := exists_hasLoop h.1 (by simp)
  rcases hbracket with ⟨-, rfl⟩ | ⟨hclose, -⟩
  · obtain rfl : i + inner.size + 1 = j := hloop.matching.2.unique h.2
    obtain ⟨hopen, hrest⟩ := hloop.holds (holds_self (b.code 0))
    obtain ⟨-, hclose, -⟩ := holds_append.mp hrest
    simp only [Nat.zero_add, length_code, List.getElem?_toArray] at hopen hclose
    rw [show i + 1 + inner.size = i + inner.size + 1 by omega] at hclose
    exact ⟨hopen, hclose⟩
  · cases hclose

theorem exists_matching {b : Block} {i : ℕ} :
    (b.commands[i]? = some .openLoop → ∃ j, Matching b.commands i j) ∧
      (b.commands[i]? = some .closeLoop → ∃ k, Matching b.commands k i) := by
  constructor
  · intro h
    obtain ⟨k, inner, hloop, ⟨-, rfl⟩ | ⟨hclose, -⟩⟩ := exists_hasLoop h (by simp)
    · exact ⟨_, hloop.matching⟩
    · cases hclose
  · intro h
    obtain ⟨k, inner, hloop, ⟨hopen, -⟩ | ⟨-, rfl⟩⟩ := exists_hasLoop h (by simp)
    · cases hopen
    · exact ⟨k, hloop.matching⟩

theorem target_le {b : Block} {target : ℕ}
    (h : .jumpIfZero target ∈ b.code 0 ∨ .jumpIfNonzero target ∈ b.code 0) :
    1 ≤ target ∧ target ≤ b.size := by
  rcases h with h | h
  · obtain ⟨i, hi⟩ := List.mem_iff_getElem?.mp h
    obtain ⟨c, hc, ⟨⟩⟩ := exists_translates hi
    obtain ⟨j, hj⟩ := exists_matching.1 hc
    cases hi.symm.trans (code_of_matching hj).1
    have hlt : j < b.commands.length := hj.2.1.2.1
    rw [length_commands] at hlt
    omega
  · obtain ⟨j, hj⟩ := List.mem_iff_getElem?.mp h
    obtain ⟨c, hc, ⟨⟩⟩ := exists_translates hj
    obtain ⟨i, hi⟩ := exists_matching.2 hc
    cases hj.symm.trans (code_of_matching hi).2
    obtain ⟨hlt, hlen, -⟩ := hi.2.1
    rw [length_commands] at hlen
    omega

end Block

namespace Command

def characters : List Char := ['<', '>', '+', '-', '.', ',', '[', ']']

theorem mem_characters_iff {ch : Char} : ch ∈ characters ↔ (ofChar? ch).isSome := by
  constructor
  · intro h
    unfold characters at h
    fin_cases h <;> rfl
  · intro h
    obtain ⟨c, hc⟩ := Option.isSome_iff_exists.mp h
    rw [ofChar?_eq_some_iff.mp hc]
    cases c with
    | action a => cases a <;> decide
    | openLoop => decide
    | closeLoop => decide

theorem map_toChar_ofText (text : List Char) :
    (ofText text).map toChar = text.filter (· ∈ characters) := by
  induction text with
  | nil => rfl
  | cons ch text ih =>
    unfold ofText at ih ⊢
    cases hc : ofChar? ch with
    | none =>
      have hmem : ch ∉ characters := by simp [mem_characters_iff, hc]
      rw [List.filterMap_cons_none hc, ih, List.filter_cons_of_neg (by simpa using hmem)]
    | some c =>
      have hmem : ch ∈ characters := by simp [mem_characters_iff, hc]
      rw [List.filterMap_cons_some hc, List.map_cons, ih,
        List.filter_cons_of_pos (by simpa using hmem), ← ofChar?_eq_some_iff.mp hc]

end Command

namespace Program

/-- In compiled code the instruction at each index is the translation of the command there. Each
opening bracket has its closing one and the other way round, and the jumps of the two lead behind
each other. Every target is the index of an instruction other than the first or the end of the
code, and a loop that begins inside another one ends inside it. -/
theorem jumps_lead_to_matching {source : String} {p : Program} (h : compile source = .ok p) :
    let commands := Command.ofText source.toList
    commands.map Command.toChar = source.toList.filter (· ∈ Command.characters) ∧
    List.Forall₂ Translates commands p.code.toList ∧
    (∀ x ∈ p.code, x ≠ .halt ∧ (∀ d, x = .move d → d = 1 ∨ d = -1) ∧
      ∀ d, x = .add d → d = 1 ∨ d = -1) ∧
    (∀ i, (commands[i]? = some .openLoop → ∃ j, Matching commands i j) ∧
      (commands[i]? = some .closeLoop → ∃ k, Matching commands k i)) ∧
    (∀ i j, Matching commands i j → p.code[i]? = some (.jumpIfZero (j + 1)) ∧
      p.code[j]? = some (.jumpIfNonzero (i + 1))) ∧
    (∀ target, .jumpIfZero target ∈ p.code ∨ .jumpIfNonzero target ∈ p.code →
      1 ≤ target ∧ target ≤ p.code.size) ∧
    ∀ i j k l, Matching commands i j → Matching commands k l → i < k → k < j → l < j := by
  obtain ⟨b, hb, rfl⟩ := compile_eq_ok_iff.mp h
  have hcharacters := Command.map_toChar_ofText source.toList
  dsimp only
  rw [← hb] at hcharacters ⊢
  refine ⟨hcharacters, ?_, ?_, ?_, ?_, ?_, ?_⟩
  · exact b.forall₂_translates 0
  · intro x hx
    have hmem : x ∈ b.code 0 := by simpa using hx
    exact Block.plain_of_mem_code hmem
  · intro i
    exact Block.exists_matching
  · intro i j hij
    simpa using Block.code_of_matching hij
  · intro target htarget
    simpa using Block.target_le (b := b) (by simpa using htarget)
  · intro i j k l hij hkl hik hkj
    exact hij.nested hkl hik hkj

theorem jumps_lead_to_matching_nested :
    let commands := Command.ofText "[x[-]>]".toList
    let p : Program := ⟨"[x[-]>]", #[.jumpIfZero 6, .jumpIfZero 4, .add (-1), .jumpIfNonzero 2,
      .move 1, .jumpIfNonzero 1]⟩
    compile "[x[-]>]" = .ok p ∧ Matching commands 0 5 ∧ Matching commands 1 3 ∧
      p.code[0]? = some (.jumpIfZero (5 + 1)) ∧ p.code[3]? = some (.jumpIfNonzero (1 + 1)) ∧
      3 < 5 := by
  intro commands p
  have hc : compile "[x[-]>]" = .ok p := by rfl
  have houter : Matching commands 0 5 := by decide
  have hinner : Matching commands 1 3 := by decide
  obtain ⟨-, -, -, -, hjumps, -, hnested⟩ := jumps_lead_to_matching hc
  exact ⟨hc, houter, hinner, (hjumps 0 5 houter).1, (hjumps 1 3 hinner).2,
    hnested 0 5 1 3 houter hinner (by decide) (by decide)⟩

end Program

end Tapecraft
