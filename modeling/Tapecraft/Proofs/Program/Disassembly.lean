import Mathlib
import Tapecraft.Program.Listing
import Tapecraft.Proofs.Text.Numeral

/-! # Listings lose nothing

A line of a listing can be told apart from the next one, its index from its instruction, and its
mnemonic from its operand. So each line is read back as its instruction, whatever the number of
digits of index and operand, and the whole listing as the code of the program.
-/
namespace Tapecraft

namespace Decimal

theorem newline_not_mem_padded (width n : ℕ) : '\n' ∉ (padded width n).toList := by
  intro h
  cases (isDigits_padded width n).isDigit _ h

theorem newline_not_mem_signed (i : ℤ) : '\n' ∉ (signed i).toList := by
  rw [signed_eq, List.mem_cons]
  rintro (h | h)
  · split at h <;> cases h
  · cases (isDigits_toDigits _).isDigit _ h

end Decimal

namespace Instruction

theorem readInstruction?_text (i : Instruction) :
    Program.readInstruction? i.text.toList = some i := by
  cases i with
  | move displacement =>
    rw [text, String.toList_append]
    change (Decimal.readSigned? (Decimal.signed displacement.toInt).toList).map _ = _
    rw [Decimal.readSigned?_signed, Option.map_some, Function.comp_apply, Int64.ofInt_toInt]
  | add delta =>
    rw [text, String.toList_append]
    change (Decimal.readSigned? (Decimal.signed delta.toInt).toList).map _ = _
    rw [Decimal.readSigned?_signed, Option.map_some, Function.comp_apply, Int8.ofInt_toInt]
  | jumpIfZero target =>
    rw [text, String.toList_append]
    change (Decimal.read? (Decimal.padded 4 target).toList).map _ = _
    rw [Decimal.read?_padded, Option.map_some]
  | jumpIfNonzero target =>
    rw [text, String.toList_append]
    change (Decimal.read? (Decimal.padded 4 target).toList).map _ = _
    rw [Decimal.read?_padded, Option.map_some]
  | print => rfl
  | read => rfl
  | halt => rfl

theorem newline_not_mem_text (i : Instruction) : '\n' ∉ i.text.toList := by
  cases i with
  | move displacement => simp [text, Decimal.newline_not_mem_signed]
  | add delta => simp [text, Decimal.newline_not_mem_signed]
  | jumpIfZero target => simp [text, Decimal.newline_not_mem_padded]
  | jumpIfNonzero target => simp [text, Decimal.newline_not_mem_padded]
  | print => decide
  | read => decide
  | halt => decide

end Instruction

namespace Program

def lineText (index : ℕ) (i : Instruction) : List Char :=
  (Decimal.padded 4 index).toList ++ ':' :: ' ' :: i.text.toList

theorem toList_line (index : ℕ) (i : Instruction) :
    (line index i).toList = lineText index i ++ ['\n'] := by
  simp [line, lineText]

/-- The index ends at the colon, since it has only digits. -/
theorem readLine?_lineText (index : ℕ) (i : Instruction) :
    readLine? (lineText index i) = some i := by
  have hbehind : (lineText index i).dropWhile Char.isDigit = ':' :: ' ' :: i.text.toList := by
    rw [lineText, List.dropWhile_append_of_pos (Decimal.isDigits_padded 4 index).isDigit]
    rfl
  rw [readLine?, hbehind]
  exact i.readInstruction?_text

theorem newline_not_mem_lineText (index : ℕ) (i : Instruction) : '\n' ∉ lineText index i := by
  rw [lineText, List.mem_append, List.mem_cons, List.mem_cons]
  rintro (h | h | h | h)
  · exact Decimal.newline_not_mem_padded 4 index h
  · cases h
  · cases h
  · exact i.newline_not_mem_text h

/-- Lines that each end with a newline are found again by cutting there; behind the last newline
there is one more part, which is empty. -/
theorem splitOn_flatMap_newline {lines : List (List Char)} (h : ∀ l ∈ lines, '\n' ∉ l) :
    (lines.flatMap (· ++ ['\n'])).splitOn '\n' = lines ++ [[]] := by
  induction lines with
  | nil => rfl
  | cons l lines ih =>
    rw [List.forall_mem_cons] at h
    rw [List.flatMap_cons, List.append_assoc, List.singleton_append,
      List.splitOn_append_cons_self_of_not_mem h.1, ih h.2, List.cons_append]

theorem toList_listing (p : Program) :
    p.listing.toList = (p.code.toList.mapIdx lineText).flatMap (· ++ ['\n']) := by
  rw [listing, String.toList_join, List.mapIdx_eq_zipIdx_map, List.mapIdx_eq_zipIdx_map,
    List.flatMap_map, List.flatMap_map]
  exact List.flatMap_congr fun e _ => toList_line e.2 e.1

theorem mapM_mapIdx_eq_some {code : List Instruction} {write : ℕ → Instruction → List Char}
    (h : ∀ index i, readLine? (write index i) = some i) :
    (code.mapIdx write).mapM readLine? = some code := by
  induction code generalizing write with
  | nil => rfl
  | cons i code ih =>
    rw [List.mapIdx_cons, List.mapM_cons, h, ih fun index => h (index + 1)]
    rfl

theorem newline_not_mem_of_mem_lines {code : List Instruction} :
    ∀ l ∈ code.mapIdx lineText, '\n' ∉ l := by
  intro l hl
  obtain ⟨index, hindex, rfl⟩ := List.mem_mapIdx.mp hl
  exact newline_not_mem_lineText index _

theorem readListing?_listing (p : Program) : readListing? p.listing = some p.code.toList := by
  rw [readListing?, toList_listing, splitOn_flatMap_newline newline_not_mem_of_mem_lines,
    List.dropLast_concat]
  exact mapM_mapIdx_eq_some readLine?_lineText

/-- A listing has one line for each instruction, in their order, and each line ends with a newline
and has no other. The code of a program is read back from its listing, so programs have the same
listing exactly if they have the same code. -/
theorem listing_faithful :
    (∀ code : Array Instruction, ∃ lines : List (List Char), lines.length = code.size ∧
      (∀ l ∈ lines, '\n' ∉ l) ∧ (∀ k : ℕ, lines[k]?.bind readLine? = code[k]?) ∧
      (ofInstructions code).listing.toList = lines.flatMap (· ++ ['\n'])) ∧
    (∀ code : Array Instruction,
      readListing? (ofInstructions code).listing = some code.toList) ∧
    ∀ p q : Program, p.listing = q.listing ↔ p.code = q.code := by
  refine ⟨?_, fun code => readListing?_listing (ofInstructions code), ?_⟩
  · intro code
    refine ⟨code.toList.mapIdx lineText, by simp, newline_not_mem_of_mem_lines, ?_,
      toList_listing (ofInstructions code)⟩
    intro k
    rw [List.getElem?_mapIdx, Array.getElem?_toList, Option.bind_map]
    cases code[k]? with
    | none => rfl
    | some i => rw [Option.bind_some, Function.comp_apply, readLine?_lineText]
  · intro p q
    constructor
    · intro h
      have hread := readListing?_listing p
      rw [h, readListing?_listing q, Option.some.injEq] at hread
      exact (Array.toList_inj.mp hread).symm
    · intro h
      rw [listing, listing, h]

example : (ofInstructions #[.move (-1), .add 0, .jumpIfZero 12345]).listing =
    "0000: ptr -1\n0001: add +0\n0002: jz 12345\n" := by decide +kernel

end Program

end Tapecraft
