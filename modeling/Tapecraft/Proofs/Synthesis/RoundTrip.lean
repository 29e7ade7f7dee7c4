import Mathlib
import Tapecraft.Proofs.Snippet.Sound
import Tapecraft.Synthesis

/-! # Synthesised programs print their text

A program is extended character by character, so what is known of its run is kept as an
invariant of the program written so far: it ends on a cell with the byte printed last, nothing
but zeros lies to the right of it, and the run has stayed between the first cell and that one.
The snippets of the table then bound the instructions and the cells for each character.
-/
namespace Tapecraft

open Machine

def Program.Prints (p : Program) (inputs : Array Int64) (limits : Limits) (text : String) : Prop :=
  ∃ o : Outcome, p.run inputs limits = .ok o ∧ o.output = text

namespace Synthesis

/-- Text that, at any place of a program, leads from a cell with `x` to one with `y`, `width`
places to the right and within `budget` instructions. What it leaves behind does not matter, only
that the cells ahead are zero again. -/
def Leads (width budget : ℕ) (x y : UInt8) (text : String) : Prop :=
  ∃ b : Block, b.commands = Command.ofText text.toList ∧
    ∀ (code : Array Instruction) (inputs : Array Int64) (s : State),
      Holds code s.counter (b.code s.counter) → Ready x width s →
      ∃ (n : ℕ) (t : State), n ≤ budget ∧ Run code inputs (span s.pointer width) n s t ∧
        t.counter = s.counter + b.size ∧ t.pointer.toInt = s.pointer.toInt + width ∧
        t.output = s.output ∧ Ready y 0 t

theorem ready_zero_of_arrived {y : UInt8} {width : ℕ} {s t : State} (h : Arrived y width s t) :
    Ready y 0 t := ⟨h.current, h.blank, by simpa using t.pointer.toInt_le⟩

theorem leads_of_carries {budget : ℕ} {x y : UInt8} {text : String}
    (h : Carries budget x y text) : Leads (loopCount text) budget x y text := by
  obtain ⟨p, hp, -⟩ := h.runs
  obtain ⟨b, hb, -⟩ := Program.compile_eq_ok_iff.mp hp
  refine ⟨b, hb, fun code inputs s hc hs => ?_⟩
  obtain ⟨n, t, hn, hrun, hend, harr⟩ := h.run_at hb inputs hc hs
  exact ⟨n, t, Nat.cast_le.mp hn, hrun, hend, harr.pointer, harr.output, ready_zero_of_arrived harr⟩

theorem leads_fresh {budget : ℕ} {x y : UInt8} {text : String} (h : Carries budget 0 y text) :
    Leads (1 + loopCount text) (1 + budget) x y (">" ++ text) := by
  obtain ⟨b, hb, hlead⟩ := leads_of_carries h
  refine ⟨.act .right b, ?_, fun code inputs s hc hs => ?_⟩
  · rw [Block.commands, hb, String.toList_append, Command.ofText_append]
    rfl
  · obtain ⟨hi, hc⟩ := hc
    have hroom := hs.room
    push_cast at hroom
    have hright : (s.pointer + 1).toInt = s.pointer.toInt + 1 := Carries.toInt_right (by omega)
    have hlt : s.pointer < s.pointer + 1 := Carries.lt_right (by omega)
    obtain ⟨t, ht, rt⟩ : ∃ t, Run code inputs (span s.pointer 1) 1 s t ∧ _ :=
      run_move hi ⟨Int64.le_refl _, by omega⟩
    have hpointer : t.pointer.toInt = s.pointer.toInt + 1 := by
      rw [rt.pointer]
      exact hright
    have hready : Ready 0 (loopCount text) t := by
      refine ⟨?_, ?_, by omega⟩
      · rw [rt.current]
        exact hs.blank _ hlt
      · intro a ha
        rw [rt.pointer] at ha
        rw [rt.cells]
        exact hs.blank a (Int64.lt_trans hlt ha)
    obtain ⟨n, u, hn, hu, hend, hp, ho, hz⟩ :=
      hlead code inputs t (by rw [rt.counter]; exact hc) hready
    refine ⟨1 + n, u, by omega, ?_, ?_, ?_, ho.trans rt.output, hz⟩
    · exact (ht.mono (Carries.span_subset_left _ _ _)).trans
        (hu.mono (Carries.span_subset_right hpointer _))
    · rw [hend, rt.counter, Block.size]
      omega
    · rw [hp, hpointer]
      push_cast
      omega

section Bounds
variable {table : Table} (hb : table.Bounded) (hlength : ∀ x y, (table.text x y).length ≤ 128)
include hb hlength

/-- The way to the next character, whichever is chosen, stays within 19 cells and, with the
printing, within 32768 instructions. -/
theorem leads_approach (last target : UInt8) :
    (approach table last target).length ≤ 129 ∧
      ∃ width ≤ 19, width ≤ (approach table last target).length ∧
        Leads width 32641 last target (approach table last target) := by
  unfold approach
  split
  · have hloops := hb.loopCount_le last target
    have hl := hlength last target
    have hcarries : Carries (32641 : ℕ) last target (table.text last target) :=
      (hb.carries last target).mono (Nat.cast_le.mpr (by omega))
    exact ⟨by omega, loopCount (table.text last target), by omega, by omega,
      leads_of_carries hcarries⟩
  · have hloops := hb.loopCount_le 0 target
    have hl := hlength 0 target
    have hcarries : Carries (32640 : ℕ) 0 target (table.text 0 target) :=
      (hb.carries 0 target).mono (Nat.cast_le.mpr (by omega))
    rw [String.length_append, show ">".length = 1 from rfl]
    exact ⟨by omega, 1 + loopCount (table.text 0 target), by omega, by omega,
      leads_fresh hcarries⟩

end Bounds

/-- What is known of a program while it is written: it has printed some characters, and the byte
printed last stands in the last cell it has reached. -/
structure Written (program : String) (printed : List Char) (last : UInt8) : Prop where
  length_le : program.length ≤ 130 * printed.length
  runs : ∃ b : Block, b.commands = Command.ofText program.toList ∧
    (program.length < 2 ^ 63 → ∀ inputs : Array Int64, ∃ (n reach : ℕ) (t : State),
      n ≤ 32768 * printed.length ∧ reach ≤ 20 * printed.length ∧ reach ≤ program.length ∧
      Run (b.code 0).toArray inputs (span 0 reach) n {} t ∧ t.counter = b.size ∧
      t.pointer.toInt = reach ∧ t.output.toList = printed ∧ Ready last 0 t)

theorem written_empty : Written "" [] 0 := by
  refine ⟨by simp, .done, rfl, fun _ inputs => ?_⟩
  refine ⟨0, 0, {}, by simp, by simp, by simp, .refl _, rfl, ?_⟩
  exact ⟨rfl, rfl, Tape.cell_blank 0, fun a _ => Tape.cell_blank a, by decide⟩

theorem run_print {code : Array Instruction} {inputs : Array Int64} {region : Set Int64}
    {s : State} (hi : code[s.counter]? = some .print) (hp : s.pointer ∈ region) :
    ∃ t, Run code inputs region 1 s t ∧ t.counter = s.counter + 1 ∧ t.pointer = s.pointer ∧
      t.tape.cell = s.tape.cell ∧ t.output = s.output.push (.ofUInt8 s.current) :=
  ⟨_, .single hi hp rfl, rfl, rfl, funext fun a => Tape.cell_touch _ _ a, rfl⟩

theorem Written.print {program : String} {printed : List Char} {last target : UInt8}
    (h : Written program printed last) {text : String} (hlength : text.length ≤ 129)
    {width : ℕ} (hwidth : width ≤ 19) (hwidth' : width ≤ text.length)
    (htext : Leads width 32641 last target text) :
    Written ((program ++ text).push '.') (printed ++ [.ofUInt8 target]) target := by
  obtain ⟨hle, b, hb, hruns⟩ := h
  obtain ⟨c, hc, hlead⟩ := htext
  have hlen : ((program ++ text).push '.').length = program.length + text.length + 1 := by simp
  have hprinted : (printed ++ [Char.ofUInt8 target]).length = printed.length + 1 := by simp
  refine ⟨by omega, (b.append c).append (.act .print .done), ?_, ?_⟩
  · rw [Block.commands_append, Block.commands_append, hb, hc, String.toList_push,
      String.toList_append, Command.ofText_append, Command.ofText_append]
    rfl
  · intro hsize inputs
    obtain ⟨n, reach, s, hn, hreach, hreach', hrun, hend, hpointer, hout, hready⟩ :=
      hruns (by omega) inputs
    have hcode : ((b.append c).append (.act .print .done)).code 0 =
        b.code 0 ++ (c.code b.size ++ [.print]) := by
      simp [Block.code_append, Block.code, Action.instruction]
    rw [hcode]
    have hall := holds_toArray (b.code 0) (c.code b.size ++ [.print])
    rw [Block.length_code, holds_append, Block.length_code] at hall
    obtain ⟨hholds, hprint, -⟩ := hall
    -- Each cell to the right has cost a character, so there is room as long as the text is short.
    have hroom : Ready last width s := by
      refine ⟨hready.current, hready.blank, ?_⟩
      rw [Int64.toInt_maxValue]
      omega
    obtain ⟨m, t, hm, hrun', hend', hpointer', hout', hready'⟩ :=
      hlead _ inputs s (by rw [hend]; exact hholds) hroom
    have hreach'' : t.pointer.toInt = ((reach + width : ℕ) : ℤ) := by
      rw [hpointer', hpointer]
      push_cast
      rfl
    have hinside : t.pointer ∈ span 0 (reach + width) := by
      refine ⟨?_, by rw [hreach'']; simp⟩
      rw [Int64.le_iff_toInt_le, hreach'']
      exact Int.natCast_nonneg _
    obtain ⟨u, hu, hcounter, hp, hcells, ho⟩ :
        ∃ u, Run _ inputs (span 0 (reach + width)) 1 t u ∧ _ :=
      run_print (by rw [hend', hend]; exact hprint) hinside
    refine ⟨n + m + 1, reach + width, u, by omega, by omega, by omega, ?_, ?_, ?_, ?_, ?_⟩
    · have hspan : s.pointer.toInt = (0 : Int64).toInt + reach := by
        rw [hpointer]
        simp
      exact (((hrun.append _).mono (Carries.span_subset_left _ _ _)).trans
        (hrun'.mono (Carries.span_subset_right hspan _))).trans hu
    · rw [hcounter, hend', hend]
      simp [Block.size]
    · rw [hp, hreach'']
    · rw [ho, String.toList_push, hout', hout, hready'.current]
    · refine ⟨?_, ?_, by simpa using u.pointer.toInt_le⟩
      · rw [State.current, hcells, hp]
        exact hready'.current
      · intro a ha
        rw [hcells]
        rw [hp] at ha
        exact hready'.blank a ha

theorem cellOf?_eq_some {c : Char} (h : c.toNat ≤ 255) :
    ∃ target, cellOf? c = some target ∧ Char.ofUInt8 target = c := by
  refine ⟨.ofNat c.toNat, if_pos (by omega), ?_⟩
  apply Char.ext
  apply UInt32.toNat_inj.mp
  change (UInt8.ofNat c.toNat).toUInt32.toNat = c.toNat
  rw [UInt8.toNat_toUInt32, UInt8.toNat_ofNat', Nat.mod_eq_of_lt (by omega)]

/-- The invariant through all characters. The positions play no part, as none is refused. -/
theorem extend_written {table : Table} (hb : table.Bounded)
    (hlength : ∀ x y, (table.text x y).length ≤ 128) {chars : List Char}
    (hchars : ∀ c ∈ chars, c.toNat ≤ 255) (position : ℕ) {program : String}
    {printed : List Char} {last : UInt8} (h : Written program printed last) :
    ∃ (source : String) (final : UInt8), extend table chars position last program = .ok source ∧
      Written source (printed ++ chars) final := by
  induction chars generalizing position program printed last with
  | nil => exact ⟨program, last, rfl, by rwa [List.append_nil]⟩
  | cons c chars ih =>
    obtain ⟨target, hcell, htarget⟩ := cellOf?_eq_some (hchars c List.mem_cons_self)
    obtain ⟨hl, width, hw, hw', hlead⟩ := leads_approach hb hlength last target
    obtain ⟨source, final, hsource, hwritten⟩ :=
      ih (fun c' hc' => hchars c' (List.mem_cons_of_mem _ hc')) (position + 1)
        (h.print hl hw hw' hlead)
    refine ⟨source, final, ?_, ?_⟩
    · rw [extend, hcell]
      exact hsource
    · rwa [htarget, List.append_assoc, List.singleton_append] at hwritten

theorem Written.run {source : String} {printed : List Char} {last : UInt8}
    (h : Written source printed last) :
    ∃ p, Program.compile source = .ok p ∧ (source.length < 2 ^ 63 →
      ∀ (inputs : Array Int64) (limits : Limits),
        (p.Prints inputs limits (.ofList printed) ∨
          ∃ resource limit, p.run inputs limits = .error (.exceeded resource limit)) ∧
        (32768 * printed.length ≤ limits.instructions → 20 * printed.length + 1 ≤ limits.cells →
          p.Prints inputs limits (.ofList printed))) := by
  obtain ⟨b, hb, hruns⟩ := h.runs
  refine ⟨⟨source, (b.code 0).toArray⟩, Program.compile_eq_ok_iff.mpr ⟨b, hb, rfl⟩, ?_⟩
  intro hsize inputs limits
  obtain ⟨n, reach, t, hn, hreach, -, hrun, hend, -, hout, -⟩ := hruns hsize inputs
  have hoff : (b.code 0).toArray[t.counter]? = none := by simp [hend]
  have htext : t.outcome.output = .ofList printed := by
    rw [← hout]
    exact String.ofList_toList.symm
  have htouched : t.tape.touched ≤ reach + 1 := by
    have hle := hrun.touched_le_add_span
    rwa [Tape.touched_blank, Nat.zero_add] at hle
  constructor
  · rcases hrun.runFrom_eq_or hoff limits limits.instructions with hok | herr
    · exact Or.inl ⟨t.outcome, hok, htext⟩
    · exact Or.inr herr
  · intro hinstructions hcells
    exact ⟨t.outcome, hrun.runFrom_eq_ok hoff (by omega) (by omega), htext⟩

/-- A text below U+0100 has a program, the program compiles, and whatever the inputs it prints
the text or passes a ceiling. It prints it when 32768 instructions and 20 cells are allowed for
each character, with one cell more; so up to 300 characters the default ceilings suffice. -/
theorem program_prints_text {text : String} (h : ∀ c ∈ text.toList, c.toNat ≤ 255) :
    ∃ (source : String) (p : Program),
      program Table.shortest.get text = .ok source ∧ Program.compile source = .ok p ∧
      (source.length < 2 ^ 63 → ∀ (inputs : Array Int64) (limits : Limits),
        (p.Prints inputs limits text ∨
          ∃ resource limit, p.run inputs limits = .error (.exceeded resource limit)) ∧
        (32768 * text.length ≤ limits.instructions → 20 * text.length + 1 ≤ limits.cells →
          p.Prints inputs limits text)) ∧
      (text.length ≤ 300 → ∀ inputs : Array Int64, p.Prints inputs {} text) := by
  obtain ⟨source, final, hsource, hwritten⟩ :=
    extend_written Table.bounded_shortest Table.length_shortest_le h 0 written_empty
  rw [List.nil_append] at hwritten
  obtain ⟨p, hp, hruns⟩ := hwritten.run
  rw [String.ofList_toList, String.length_toList] at hruns
  refine ⟨source, p, hsource, hp, hruns, fun hshort inputs => ?_⟩
  have hsize := hwritten.length_le
  rw [String.length_toList] at hsize
  refine (hruns (by omega) inputs {}).2 ?_ ?_
  · change 32768 * text.length ≤ 10000000
    omega
  · change 20 * text.length + 1 ≤ 30000
    omega

theorem program_prints_text_latin :
    ∃ (source : String) (p : Program),
      program Table.shortest.get "Aÿ\n" = .ok source ∧ Program.compile source = .ok p ∧
      ∀ inputs : Array Int64, p.Prints inputs {} "Aÿ\n" := by
  have h : ∀ c ∈ "Aÿ\n".toList, c.toNat ≤ 255 := by simp
  obtain ⟨source, p, hsource, hp, -, hshort⟩ := program_prints_text h
  have hlength : "Aÿ\n".length = 3 := by decide
  exact ⟨source, p, hsource, hp, hshort (by omega)⟩

end Synthesis

end Tapecraft
