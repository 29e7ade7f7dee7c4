import Mathlib
import Tapecraft.Proofs.Program.Balance
import Tapecraft.Proofs.Program.Matching

/-! # Compiling a text from its parts

The code of a text is made of the code of its parts, with the targets of the jumps moved to where
the part stands. An error in the second part is the error of that part alone, since a first part
that compiles has closed all its loops and so neither adds to the loops open behind it nor lends
one to be closed. Comments play no part, and nothing else of the text is lost in its code.
-/
namespace Tapecraft

/-- The error that is reported if so many characters stand before the text. -/
def BracketError.raise (offset : ℕ) : BracketError → BracketError
  | unmatchedClose position => .unmatchedClose (offset + position)
  | unmatchedOpen count => .unmatchedOpen count

theorem Translates.leftUnique : Relator.LeftUnique Translates := by
  intro c x d hc hd
  cases hc <;> cases hd <;> rfl

theorem Block.commands_eq_of_code_eq {a b : Block} {start : ℕ} (h : a.code start = b.code start) :
    a.commands = b.commands := by
  have hb := b.forall₂_translates start
  rw [← h] at hb
  exact List.left_unique_forall₂' Translates.leftUnique (a.forall₂_translates start) hb

theorem Block.commands_append_eq_ofText {x y : Block} {a b : String}
    (hx : x.commands = Command.ofText a.toList) (hy : y.commands = Command.ofText b.toList) :
    (x.append y).commands = Command.ofText (a ++ b).toList := by
  rw [commands_append, hx, hy, String.toList_append, Command.ofText_append]

namespace Command

theorem toChar_injective : Function.Injective toChar := by
  intro c d h
  have hsome := ofChar?_toChar c
  rw [h, ofChar?_toChar] at hsome
  exact (Option.some.inj hsome).symm

theorem ofText_eq_iff {a b : List Char} :
    ofText a = ofText b ↔ a.filter (· ∈ characters) = b.filter (· ∈ characters) := by
  rw [← map_toChar_ofText, ← map_toChar_ofText]
  exact (List.map_injective_iff.mpr toChar_injective).eq_iff.symm

theorem ofText_eq_nil {text : List Char} (h : ∀ ch ∈ text, ch ∉ characters) :
    ofText text = [] := by
  apply List.filterMap_eq_nil_iff.mpr
  intro ch hch
  simpa [mem_characters_iff] using h ch hch

end Command

namespace Program
open Command
variable {a b : String} {p q : Program}

theorem compile_of_ofText_eq (h : ofText a.toList = ofText b.toList) (ha : compile a = .ok p) :
    compile b = .ok ⟨b, p.code⟩ := by
  obtain ⟨x, hx, rfl⟩ := compile_eq_ok_iff.mp ha
  exact compile_eq_ok_iff.mpr ⟨x, hx.trans h, rfl⟩

theorem code_eq_iff (ha : compile a = .ok p) (hb : compile b = .ok q) :
    p.code = q.code ↔ ofText a.toList = ofText b.toList := by
  obtain ⟨x, hx, rfl⟩ := compile_eq_ok_iff.mp ha
  obtain ⟨y, hy, rfl⟩ := compile_eq_ok_iff.mp hb
  rw [← hx, ← hy]
  constructor
  · intro h
    have hcode : x.code 0 = y.code 0 := by simpa using h
    exact Block.commands_eq_of_code_eq hcode
  · intro h
    rw [Block.commands_injective h]

theorem compile_append (ha : compile a = .ok p) (hb : compile b = .ok q) :
    compile (a ++ b) = .ok ⟨a ++ b, p.code ++ q.code.map (Instruction.shift p.code.size)⟩ := by
  obtain ⟨x, hx, rfl⟩ := compile_eq_ok_iff.mp ha
  obtain ⟨y, hy, rfl⟩ := compile_eq_ok_iff.mp hb
  refine compile_eq_ok_iff.mpr ⟨x.append y, Block.commands_append_eq_ofText hx hy, ?_⟩
  simp [Block.code_append, Block.map_shift_code]

theorem compile_enclosed (ha : compile a = .ok p) :
    compile ("[" ++ a ++ "]") = .ok ⟨"[" ++ a ++ "]",
      #[.jumpIfZero (p.code.size + 2)] ++ p.code.map (Instruction.shift 1) ++
        #[.jumpIfNonzero 1]⟩ := by
  obtain ⟨x, hx, rfl⟩ := compile_eq_ok_iff.mp ha
  refine compile_eq_ok_iff.mpr ⟨.loop x .done, ?_, ?_⟩
  · rw [String.toList_append, String.toList_append, ofText_append, ofText_append, ← hx]
    rfl
  · simp [Block.code, Block.map_shift_code]

/-- Behind a text that closes its loops, the prefixes that close too many are those of the text
that follows. -/
theorem overcloses_take_append {front : List Char} (hnever : ∀ n, ¬ Overcloses 0 (front.take n))
    (hcount : front.count '[' = front.count ']') (back : List Char) (n : ℕ) :
    Overcloses 0 ((front ++ back).take n) ↔ Overcloses 0 (back.take (n - front.length)) := by
  rw [List.take_append]
  rcases Nat.le_total n front.length with hle | hle
  · rw [Nat.sub_eq_zero_of_le hle, List.take_zero, List.append_nil]
    exact iff_of_false (hnever n) (not_overcloses_nil 0)
  · rw [List.take_of_length_le hle]
    unfold Overcloses
    rw [List.count_append, List.count_append]
    omega

theorem compile_append_of_unmatchedClose {position : ℕ}
    (ha : compile a = .error (.unmatchedClose position)) (b : String) :
    compile (a ++ b) = .error (.unmatchedClose position) := by
  rw [compile_eq_unmatchedClose_iff] at ha ⊢
  obtain ⟨hclose, hmem, hleast⟩ := ha
  have hlt : position < a.toList.length := (List.getElem?_eq_some_iff.mp hclose).1
  have htake {n : ℕ} (hn : n ≤ position + 1) : (a ++ b).toList.take n = a.toList.take n := by
    rw [String.toList_append, List.take_append_of_le_length (by omega)]
  refine ⟨?_, ?_, ?_⟩
  · rw [String.toList_append, List.getElem?_append_left hlt]
    exact hclose
  · change Overcloses 0 _
    rw [htake le_rfl]
    exact hmem
  · intro n hn
    by_contra hshort
    have hn' : n ≤ position + 1 := Nat.le_of_not_le hshort
    change Overcloses 0 _ at hn
    rw [htake hn'] at hn
    exact hshort (hleast hn)

/-- The shortest prefix that closes too many loops ends in the second text, and the surplus of
opening brackets is its own, as the first text closes what it opens. -/
theorem compile_append_of_error {e : BracketError} (ha : compile a = .ok p)
    (hb : compile b = .error e) : compile (a ++ b) = .error (e.raise a.length) := by
  obtain ⟨hnever, hcount⟩ := exists_compile_eq_ok_iff.mp ⟨p, ha⟩
  have htake := overcloses_take_append hnever hcount b.toList
  rw [← String.toList_append, String.length_toList] at htake
  cases e with
  | unmatchedClose position =>
    obtain ⟨hclose, hmem, hleast⟩ := compile_eq_unmatchedClose_iff.mp hb
    refine compile_eq_unmatchedClose_iff.mpr ⟨?_, ?_, ?_⟩
    · rw [String.toList_append, ← String.length_toList, List.getElem?_append_right (by omega),
        Nat.add_sub_cancel_left]
      exact hclose
    · have hbehind : a.length + position + 1 - a.length = position + 1 := by omega
      change Overcloses 0 _
      rw [htake, hbehind]
      exact hmem
    · intro n hn
      have hle : position + 1 ≤ n - a.length := hleast ((htake n).mp hn)
      omega
  | unmatchedOpen count =>
    obtain ⟨hnone, hpos, hsurplus⟩ := compile_eq_unmatchedOpen_iff.mp hb
    refine compile_eq_unmatchedOpen_iff.mpr ⟨?_, hpos, ?_⟩
    · intro n hn
      exact hnone _ ((htake n).mp hn)
    · rw [String.toList_append, List.count_append, List.count_append]
      omega

/-- The code of two texts one behind the other is the code of the first and then that of the
second, its targets raised by the length of the first; a text in brackets has its own code
between the two jumps of the loop. A bracket that closes too many loops is reported whatever
follows it, and the error of a second text is reported with its position raised if the first one
compiles. Comments may be put in anywhere and left out, and two texts that compile have the same
code exactly if they have the same command characters. -/
theorem compile_compositional (a b : String) :
    (∀ p q, compile a = .ok p → compile b = .ok q →
      compile (a ++ b) =
        .ok ⟨a ++ b, p.code ++ q.code.map (Instruction.shift p.code.size)⟩) ∧
    (∀ p, compile a = .ok p →
      compile ("[" ++ a ++ "]") = .ok ⟨"[" ++ a ++ "]",
        #[.jumpIfZero (p.code.size + 2)] ++ p.code.map (Instruction.shift 1) ++
          #[.jumpIfNonzero 1]⟩) ∧
    (∀ position, compile a = .error (.unmatchedClose position) →
      compile (a ++ b) = .error (.unmatchedClose position)) ∧
    (∀ p e, compile a = .ok p → compile b = .error e →
      compile (a ++ b) = .error (e.raise a.length)) ∧
    (∀ comment : String, (∀ ch ∈ comment.toList, ch ∉ characters) →
      ∀ code, compile (a ++ b) = .ok ⟨a ++ b, code⟩ ↔
        compile (a ++ comment ++ b) = .ok ⟨a ++ comment ++ b, code⟩) ∧
    ∀ p q, compile a = .ok p → compile b = .ok q →
      (p.code = q.code ↔
        a.toList.filter (· ∈ characters) = b.toList.filter (· ∈ characters)) := by
  refine ⟨?_, ?_, ?_, ?_, ?_, ?_⟩
  · intro p q ha hb
    exact compile_append ha hb
  · intro p ha
    exact compile_enclosed ha
  · intro position ha
    exact compile_append_of_unmatchedClose ha b
  · intro p e ha hb
    exact compile_append_of_error ha hb
  · intro comment hcomment code
    have hsame : ofText (a ++ b).toList = ofText (a ++ comment ++ b).toList := by
      simp [ofText_eq_nil hcomment]
    exact ⟨compile_of_ofText_eq hsame, compile_of_ofText_eq hsame.symm⟩
  · intro p q ha hb
    rw [code_eq_iff ha hb, ofText_eq_iff]

theorem compile_compositional_loops :
    let p : Program := ⟨"[-]", #[.jumpIfZero 3, .add (-1), .jumpIfNonzero 1]⟩
    compile "[-]" = .ok p ∧
      compile ("[-]" ++ "[-]") = .ok ⟨"[-]" ++ "[-]", #[.jumpIfZero 3, .add (-1),
        .jumpIfNonzero 1, .jumpIfZero 6, .add (-1), .jumpIfNonzero 4]⟩ ∧
      compile ("[" ++ "[-]" ++ "]") = .ok ⟨"[" ++ "[-]" ++ "]", #[.jumpIfZero 5, .jumpIfZero 4,
        .add (-1), .jumpIfNonzero 2, .jumpIfNonzero 1]⟩ ∧
      compile ("[-]" ++ "+]") = .error (.unmatchedClose (3 + 1)) ∧
      compile ("[-" ++ "x" ++ "]") = .ok ⟨"[-" ++ "x" ++ "]", p.code⟩ := by
  intro p
  have hp : compile "[-]" = .ok p := by rfl
  have herror : compile "+]" = .error (.unmatchedClose 1) := by rfl
  obtain ⟨happend, henclosed, -⟩ := compile_compositional "[-]" "[-]"
  obtain ⟨-, -, -, hraised, -⟩ := compile_compositional "[-]" "+]"
  obtain ⟨-, -, -, -, hcomment, -⟩ := compile_compositional "[-" "]"
  refine ⟨hp, ?_, ?_, hraised p _ hp herror, ?_⟩
  · rw [happend p p hp hp]
    simp [p, Instruction.shift]
  · rw [henclosed p hp]
    simp [p, Instruction.shift]
  · have hx : ∀ ch ∈ "x".toList, ch ∉ characters := by simp [characters]
    exact (hcomment "x" hx p.code).mp hp

end Program

end Tapecraft
