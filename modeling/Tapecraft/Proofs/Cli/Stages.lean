import Mathlib
import Tapecraft.Directory
import Tapecraft.Proofs.Cli.Configuration
import Tapecraft.Proofs.Cli.Formats
import Tapecraft.Proofs.Cli.Session
import Tapecraft.Proofs.Synthesis.Continuation

/-! # The stages of a job

A job goes through stages, each of which may fail: the configuration, and then, to execute a
program, its inputs, its compilation and its run, or, to encode a text, its synthesis. What stands
in the way of a job is said of each stage by itself, so that several things can stand in its way at
once. The first of them is reported and nothing is printed then; if there is none, the whole result
is printed.
-/
namespace Tapecraft.Cli
open Config

/-- The ceilings of an invocation: its own, those that the configuration gives for the rest, and
the usual ones for what neither gives. -/
def Invocation.ceilings (i : Invocation) (given : Given) : Limits :=
  ⟨(i.maxInstructions <|> given.instructions).getD 10000000,
    (i.maxCells <|> given.cells).getD 30000⟩

theorem override_filled (i : Invocation) (given : Given) :
    i.override (filled given) = i.ceilings given := by
  obtain ⟨config, maxInstructions, maxCells, job⟩ := i
  cases maxInstructions <;> cases maxCells <;> rfl

/-- The place of a failure among the stages that the same job can come to. -/
def Failure.stage : Failure → ℕ
  | config _ => 0
  | inputs _ => 1
  | compilation _ => 2
  | execution _ => 3
  | json _ => 4
  | synthesis _ => 1

/-- How the output of a run is shown: an empty one is named, and the end of one that ends in a
blank is marked. -/
inductive Shown : String → String → Prop
  | empty : Shown "" "No output"
  | blank {front : String} {c : Char} (h : isBlank c = true) :
      Shown (front.push c) (front.push c ++ "<EOF>")
  | solid {front : String} {c : Char} (h : isBlank c = false) : Shown (front.push c) (front.push c)

/-- How the outcome of a run is printed: its output as it is shown, with the rest summed up beside
it, or all of it as a JSON text. -/
inductive Printed (formats : Formats) : Bool → Outcome → Result → Prop
  | shown {o : Outcome} {text : String} (h : Shown o.output text) :
      Printed formats false o ⟨text ++ "\n", some o⟩
  | json {o : Outcome} {text : String} (h : formats.json o = .ok text) :
      Printed formats true o ⟨text ++ "\n", none⟩

theorem Shown.shown_eq {output text : String} (h : Shown output text) : shown output = text := by
  cases h with
  | empty => rfl
  | blank hc => simp [shown, hc]
  | solid hc => simp [shown, hc]

theorem exists_shown (output : String) : ∃ text, Shown output text := by
  rcases List.eq_nil_or_concat output.toList with hnil | ⟨front, c, hlist⟩
  · obtain rfl : output = "" := String.toList_inj.mp hnil
    exact ⟨_, .empty⟩
  · obtain rfl : output = (String.ofList front).push c := by
      rw [← String.toList_inj, hlist, List.concat_eq_append, String.toList_push,
        String.toList_ofList]
    cases hc : isBlank c with
    | true => exact ⟨_, .blank hc⟩
    | false => exact ⟨_, .solid hc⟩

theorem Formats.Lossless.exists_printed {formats : Formats} (h : formats.Lossless) (json : Bool)
    (o : Outcome) : ∃ r, Printed formats json o r := by
  cases json with
  | false =>
    obtain ⟨text, htext⟩ := exists_shown o.output
    exact ⟨_, .shown htext⟩
  | true =>
    obtain ⟨text, htext⟩ := h.total o
    exact ⟨_, .json htext⟩

theorem Formats.Lossless.eq_of_printed {formats : Formats} (h : formats.Lossless) {o o' : Outcome}
    {r r' : Result} (hr : Printed formats true o r) (hr' : Printed formats true o' r')
    (houtput : r'.output = r.output) : o' = o := by
  cases hr with
  | json hjson =>
    cases hr' with
    | json hjson' =>
      have htext := String.append_left_inj _ |>.mp houtput
      exact h.faithful (htext ▸ hjson') hjson

section Stages
variable (formats : Formats) (files : Files) (i : Invocation)

/-- The failure stands in the way of the invocation, whatever else does. A program has to be there
to be run, so only its run needs the stages before it. -/
inductive Obstacle : Failure → Prop
  | config {e : ConfigError} (h : Unloadable formats.config files i.config e) :
      Obstacle (.config e)
  | inputs {text program : String} {json disassemble : Bool} {e : Inputs.Malformed}
      (hjob : i.job = .exec (some text) json disassemble program)
      (h : Inputs.parse text = .error e) : Obstacle (.inputs e)
  | compilation {input : Option String} {program : String} {json disassemble : Bool}
      {e : BracketError} (hjob : i.job = .exec input json disassemble program)
      (h : Program.compile program = .error e) : Obstacle (.compilation e)
  | execution {input : Option String} {program : String} {json : Bool} {xs : List Int64}
      {p : Program} {given : Given} {e : Fault} (hjob : i.job = .exec input json false program)
      (hconfig : Configured formats.config files i.config given) (hinputs : inputsOf input = .ok xs)
      (hprogram : Program.compile program = .ok p)
      (h : p.run xs.toArray (i.ceilings given) = .error e) : Obstacle (.execution e)
  | synthesis {words : List String} {e : Synthesis.WideChar} (hjob : i.job = .encode words)
      (h : Synthesis.program Table.shortest.get (" ".intercalate words) = .error e) :
      Obstacle (.synthesis e)

/-- The failure stands in the way, and nothing does in an earlier stage. -/
structure FirstObstacle (f : Failure) : Prop where
  obstacle : Obstacle formats files i f
  first : ∀ g, Obstacle formats files i g → f.stage ≤ g.stage

inductive Completed : Result → Prop
  | listed {input : Option String} {program : String} {json : Bool} {p : Program}
      (hjob : i.job = .exec input json true program) (hprogram : Program.compile program = .ok p) :
      Completed ⟨p.listing, none⟩
  | executed {input : Option String} {program : String} {json : Bool} {xs : List Int64}
      {p : Program} {given : Given} {o : Outcome} {r : Result}
      (hjob : i.job = .exec input json false program)
      (hconfig : Configured formats.config files i.config given) (hinputs : inputsOf input = .ok xs)
      (hprogram : Program.compile program = .ok p)
      (h : p.run xs.toArray (i.ceilings given) = .ok o) (hr : Printed formats json o r) :
      Completed r
  | encoded {words : List String} {program : String} (hjob : i.job = .encode words)
      (h : Synthesis.program Table.shortest.get (" ".intercalate words) = .ok program) :
      Completed ⟨program ++ "\n", none⟩
  | shortened {program : String} (hjob : i.job = .shorten program) :
      Completed ⟨RunLength.shorten program ++ "\n", none⟩

end Stages

section Run
variable {formats : Formats} {files : Files} {i : Invocation} {given : Given}

theorem run_of_unloadable {e : ConfigError} (h : Unloadable formats.config files i.config e) :
    run formats files i = .error (.config e) := by
  rw [run, h.load_eq]
  rfl

theorem run_of_configured (h : Configured formats.config files i.config given) :
    run formats files i =
      i.job.inputs.bind fun inputs =>
        (prepare (i.ceilings given) inputs i.job).bind (Stage.complete formats) := by
  rw [run, h.load_eq, ← override_filled]
  rfl

section Runs
variable {input : Option String} {program : String} {json disassemble : Bool}
  {words : List String} {xs : List Int64} {p : Program}

theorem run_of_listing (hconfig : Configured formats.config files i.config given)
    (hjob : i.job = .exec input json true program) :
    run formats files i = (inputsOf input).bind fun _ =>
      ((Program.compile program).mapError .compilation).map fun p => ⟨p.listing, none⟩ := by
  rw [run_of_configured hconfig, hjob, Job.inputs]
  cases inputsOf input with
  | error f => rfl
  | ok xs =>
    simp only [Except.bind, prepare]
    cases Program.compile program <;> rfl

theorem run_of_malformed {text : String} {e : Inputs.Malformed}
    (hconfig : Configured formats.config files i.config given)
    (hjob : i.job = .exec (some text) json disassemble program)
    (h : Inputs.parse text = .error e) : run formats files i = .error (.inputs e) := by
  rw [run_of_configured hconfig, hjob, Job.inputs, inputsOf, h]
  rfl

theorem run_of_unbalanced {e : BracketError}
    (hconfig : Configured formats.config files i.config given)
    (hjob : i.job = .exec input json disassemble program) (hinputs : inputsOf input = .ok xs)
    (h : Program.compile program = .error e) : run formats files i = .error (.compilation e) := by
  rw [run_of_configured hconfig, hjob, Job.inputs, hinputs]
  simp only [Except.bind, prepare, h]
  rfl

theorem run_of_compiled (hconfig : Configured formats.config files i.config given)
    (hjob : i.job = .exec input json false program) (hinputs : inputsOf input = .ok xs)
    (hprogram : Program.compile program = .ok p) :
    run formats files i =
      Stage.complete formats (.compiled p xs (i.ceilings given) json) := by
  rw [run_of_configured hconfig, hjob, Job.inputs, hinputs]
  simp only [Except.bind, prepare, hprogram]
  rfl

theorem complete_of_error {limits : Limits} {e : Fault} (h : p.run xs.toArray limits = .error e) :
    Stage.complete formats (.compiled p xs limits json) = .error (.execution e) := by
  rw [Stage.complete, h]
  rfl

theorem complete_of_printed {limits : Limits} {o : Outcome} {r : Result}
    (h : p.run xs.toArray limits = .ok o) (hr : Printed formats json o r) :
    Stage.complete formats (.compiled p xs limits json) = .ok r := by
  rw [Stage.complete, h]
  cases hr with
  | shown htext =>
    rw [← htext.shown_eq]
    rfl
  | json htext =>
    simp only [Except.mapError, bind, Except.bind, htext]
    rfl

theorem run_of_encode (hconfig : Configured formats.config files i.config given)
    (hjob : i.job = .encode words) :
    run formats files i =
      ((Synthesis.program Table.shortest.get (" ".intercalate words)).mapError .synthesis).map
        fun source => ⟨source ++ "\n", none⟩ := by
  rw [run_of_configured hconfig, hjob]
  simp only [Job.inputs, Except.bind, prepare]
  cases Synthesis.program Table.shortest.get (" ".intercalate words) with
  | error e => rfl
  | ok source => rfl

theorem run_of_shorten (hconfig : Configured formats.config files i.config given)
    (hjob : i.job = .shorten program) :
    run formats files i = .ok ⟨RunLength.shorten program ++ "\n", none⟩ := by
  rw [run_of_configured hconfig, hjob]
  rfl

theorem configured_of_obstacles (h : ∀ f, Obstacle formats files i f → 0 < f.stage) :
    ∃ given, Configured formats.config files i.config given := by
  rcases configured_or_unloadable formats.config files i.config with hconfig | ⟨e, he⟩
  · exact hconfig
  · exact absurd (h _ (.config he)) (Nat.lt_irrefl 0)

theorem inputsOf_of_obstacles (hjob : i.job = .exec input json disassemble program)
    (h : ∀ f, Obstacle formats files i f → 1 < f.stage) : ∃ xs, inputsOf input = .ok xs := by
  cases input with
  | none => exact ⟨[], rfl⟩
  | some text =>
    cases hparse : Inputs.parse text with
    | ok xs => exact ⟨xs, by rw [inputsOf, hparse]; rfl⟩
    | error e => exact absurd (h _ (.inputs hjob hparse)) (Nat.lt_irrefl 1)

end Runs

theorem FirstObstacle.run_eq {f : Failure} (h : FirstObstacle formats files i f) :
    run formats files i = .error f := by
  obtain ⟨hobstacle, hfirst⟩ := h
  cases hobstacle with
  | config he => exact run_of_unloadable he
  | inputs hjob hparse =>
    obtain ⟨_, hconfig⟩ := configured_of_obstacles hfirst
    exact run_of_malformed hconfig hjob hparse
  | compilation hjob hprogram =>
    obtain ⟨_, hconfig⟩ := configured_of_obstacles fun g hg => Nat.zero_lt_of_lt (hfirst g hg)
    obtain ⟨xs, hinputs⟩ := inputsOf_of_obstacles hjob hfirst
    exact run_of_unbalanced hconfig hjob hinputs hprogram
  | execution hjob hconfig hinputs hprogram hrun =>
    rw [run_of_compiled hconfig hjob hinputs hprogram]
    exact complete_of_error hrun
  | synthesis hjob he =>
    obtain ⟨_, hconfig⟩ := configured_of_obstacles hfirst
    rw [run_of_encode hconfig hjob, he]
    rfl

theorem Completed.run_eq {r : Result} (h : Completed formats files i r)
    (hnone : ∀ f, ¬ Obstacle formats files i f) : run formats files i = .ok r := by
  obtain ⟨_, hthere⟩ := configured_of_obstacles fun f hf => absurd hf (hnone f)
  cases h with
  | listed hjob hprogram =>
    obtain ⟨xs, hinputs⟩ := inputsOf_of_obstacles hjob fun f hf => absurd hf (hnone f)
    rw [run_of_listing hthere hjob, hinputs, hprogram]
    rfl
  | executed hjob hconfig hinputs hprogram hrun hr =>
    rw [run_of_compiled hconfig hjob hinputs hprogram]
    exact complete_of_printed hrun hr
  | encoded hjob hprogram =>
    rw [run_of_encode hthere hjob, hprogram]
    rfl
  | shortened hjob => exact run_of_shorten hthere hjob

theorem exists_firstObstacle (h : ∃ f, Obstacle formats files i f) :
    ∃ f, FirstObstacle formats files i f := by
  obtain ⟨f, hf, hleast⟩ := (measure Failure.stage).wf.has_min {f | Obstacle formats files i f} h
  exact ⟨f, hf, fun g hg => Nat.le_of_not_lt (hleast g hg)⟩

theorem exists_completed (hformats : formats.Lossless)
    (hnone : ∀ f, ¬ Obstacle formats files i f) : ∃ r, Completed formats files i r := by
  obtain ⟨given, hconfig⟩ := configured_of_obstacles fun f hf => absurd hf (hnone f)
  cases hjob : i.job with
  | exec input json disassemble program =>
    obtain ⟨xs, hinputs⟩ := inputsOf_of_obstacles hjob fun f hf => absurd hf (hnone f)
    cases hprogram : Program.compile program with
    | error e => exact absurd (.compilation hjob hprogram) (hnone _)
    | ok p =>
      cases disassemble with
      | true => exact ⟨_, .listed hjob hprogram⟩
      | false =>
        cases hrun : p.run xs.toArray (i.ceilings given) with
        | error e => exact absurd (.execution hjob hconfig hinputs hprogram hrun) (hnone _)
        | ok o =>
          obtain ⟨r, hr⟩ := hformats.exists_printed json o
          exact ⟨r, .executed hjob hconfig hinputs hprogram hrun hr⟩
  | encode words =>
    cases hprogram : Synthesis.program Table.shortest.get (" ".intercalate words) with
    | error e => exact absurd (.synthesis hjob hprogram) (hnone _)
    | ok source => exact ⟨_, .encoded hjob hprogram⟩
  | shorten program => exact ⟨_, .shortened hjob⟩

end Run

section Perform
variable {formats : Formats} {files files' : Files} {times times' : ℕ → ℕ} {i i' : Invocation}
  {given given' : Given} {input input' : Option String} {program : String} {json json' : Bool}

theorem perform_of_error {f : Failure} (h : run formats files i = .error f) :
    perform formats files times i = ⟨1, "", [], [f.message]⟩ := by
  rw [perform_eq, h]

theorem perform_of_ok {r : Result} (h : run formats files i = .ok r) :
    perform formats files times i = ⟨0, r.output,
      r.summed.elim [] fun o => summary o ⟨times 1 - times 0, times 3 - times 2⟩, []⟩ := by
  rw [perform_eq, h]

/-- A listing depends on the inputs only where they are malformed, and not on anything else that
goes into a run. -/
theorem perform_of_listing (hconfig : Configured formats.config files i.config given)
    (hjob : i.job = .exec input json true program) :
    perform formats files times i =
      match (inputsOf input).bind fun _ => (Program.compile program).mapError .compilation with
      | .error f => ⟨1, "", [], [f.message]⟩
      | .ok p => ⟨0, p.listing, [], []⟩ := by
  rw [perform_eq, run_of_listing hconfig hjob]
  cases inputsOf input with
  | error f => rfl
  | ok xs => cases Program.compile program <;> rfl

theorem perform_listing_eq (hconfig : Configured formats.config files i.config given)
    (hconfig' : Configured formats.config files' i'.config given')
    (hjob : i.job = .exec input json true program)
    (hjob' : i'.job = .exec input' json' true program)
    (hinputs : input' = input ∨
      (∃ xs, inputsOf input = .ok xs) ∧ ∃ xs, inputsOf input' = .ok xs) :
    perform formats files' times' i' = perform formats files times i := by
  rw [perform_of_listing hconfig hjob, perform_of_listing hconfig' hjob']
  rcases hinputs with rfl | ⟨⟨xs, hxs⟩, ys, hys⟩
  · rfl
  · rw [hxs, hys]
    rfl

end Perform

/-- Either something stands first in the way of a job, or nothing does and the job has a whole
result. In the one case the program fails with the error that stands first, and has printed nothing;
in the other it succeeds, and has printed the whole result. Behind the configuration, a text is
always shortened. A program is listed whatever its ceilings, its inputs, and the form of a result,
if only the inputs are well-formed, and it fails only if it does not compile. A program runs under
its own ceilings, those of the configuration for the rest, and the usual ones for what neither
gives; its output is printed as it is shown, or the whole outcome as a JSON text that tells it. -/
theorem perform_all_or_nothing {formats : Formats} (hformats : formats.Lossless) (files : Files)
    (times : ℕ → ℕ) (i : Invocation) :
    ((∃ f, FirstObstacle formats files i f) ∨
      (∀ f, ¬ Obstacle formats files i f) ∧ ∃ r, Completed formats files i r) ∧
    (∀ f, FirstObstacle formats files i f →
      perform formats files times i = ⟨1, "", [], [f.message]⟩) ∧
    (∀ r, (∀ f, ¬ Obstacle formats files i f) → Completed formats files i r →
      perform formats files times i = ⟨0, r.output,
        r.summed.elim [] fun o => summary o ⟨times 1 - times 0, times 3 - times 2⟩, []⟩) ∧
    ∀ given, Configured formats.config files i.config given →
      (∀ program, i.job = .shorten program →
        perform formats files times i = ⟨0, RunLength.shorten program ++ "\n", [], []⟩) ∧
      (∀ input json program, i.job = .exec input json true program →
        (∀ files' times' i' given' input' json',
          Configured formats.config files' i'.config given' →
          i'.job = .exec input' json' true program →
          (input' = input ∨ (∃ xs, inputsOf input = .ok xs) ∧ ∃ xs, inputsOf input' = .ok xs) →
          perform formats files' times' i' = perform formats files times i) ∧
        ∀ p, (∃ xs, inputsOf input = .ok xs) → Program.compile program = .ok p →
          perform formats files times i = ⟨0, p.listing, [], []⟩) ∧
      ∀ input json program xs p, i.job = .exec input json false program →
        inputsOf input = .ok xs → Program.compile program = .ok p →
        (∀ e, p.run xs.toArray (i.ceilings given) = .error e →
          perform formats files times i = ⟨1, "", [], [(Failure.execution e).message]⟩) ∧
        ∀ o, p.run xs.toArray (i.ceilings given) = .ok o →
          ∃ r, Printed formats json o r ∧
            perform formats files times i = ⟨0, r.output,
              r.summed.elim [] fun o => summary o ⟨times 1 - times 0, times 3 - times 2⟩, []⟩ ∧
            (json = true → ∀ o' r', Printed formats true o' r' → r'.output = r.output →
              o' = o) := by
  refine ⟨?_, fun f hf => perform_of_error hf.run_eq,
    fun r hnone hr => perform_of_ok (hr.run_eq hnone), fun given hconfig => ?_⟩
  · by_cases h : ∃ f, Obstacle formats files i f
    · exact Or.inl (exists_firstObstacle h)
    · have hnone := not_exists.mp h
      exact Or.inr ⟨hnone, exists_completed hformats hnone⟩
  refine ⟨fun program hjob => perform_of_ok (run_of_shorten hconfig hjob), ?_, ?_⟩
  · intro input json program hjob
    constructor
    · intro files' times' i' given' input' json' hconfig' hjob' hinputs
      exact perform_listing_eq hconfig hconfig' hjob hjob' hinputs
    · rintro p ⟨xs, hinputs⟩ hprogram
      rw [perform_of_listing hconfig hjob, hinputs, hprogram]
      rfl
  · intro input json program xs p hjob hinputs hprogram
    have hrun := run_of_compiled hconfig hjob hinputs hprogram
    constructor
    · intro e he
      exact perform_of_error (hrun.trans (complete_of_error he))
    · intro o ho
      obtain ⟨r, hr⟩ := hformats.exists_printed json o
      refine ⟨r, hr, perform_of_ok (hrun.trans (complete_of_printed ho hr)), ?_⟩
      rintro rfl o' r' hr' houtput
      exact hformats.eq_of_printed hr hr' houtput

theorem program_one : Synthesis.program Table.shortest.get "\x01" = .ok "+." := by
  have htext : Table.shortest.get.text 0 1 = "+" := by
    rw [Table.text, Table.get_shortest_of_le_one (by decide)]
    decide
  have hcell : Synthesis.cellOf? '\x01' = some 1 := by decide
  have hsingle := Synthesis.program_singleton Table.shortest.get hcell
  rw [htext] at hsingle
  exact hsingle

/-- A directory with a configuration, and each kind of job in it. -/
theorem perform_all_or_nothing_directory :
    let files := Directory.files
      ⟨[(["bfkit.toml"], .file "[limits]\nmax_instructions = 9\n".toUTF8),
        (["bad.toml"], .file "=".toUTF8)]⟩
    let circular : Files :=
      ⟨fun _ => false, fun _ => .error (.other "Too many levels of symbolic links")⟩
    let reason := "TOML parse error at line 1, column 1\n  |\n1 | =\n  | ^\ninvalid key\n"
    let formats := Formats.usual fun _ => reason
    let ends (i : Invocation) := perform formats files (1500 * ·) i
    formats.Lossless ∧
    ends ⟨some "no.toml", none, none, .exec (some "x") false false "]"⟩ =
      ⟨1, "", [], ["failed to read no.toml: No such file or directory (os error 2): " ++
        "No such file or directory (os error 2)"]⟩ ∧
    ends ⟨some "bad.toml", none, none, .shorten "+"⟩ =
      ⟨1, "", [], ["failed to parse bad.toml: " ++ reason ++ ": " ++ reason]⟩ ∧
    ends ⟨none, some 0, none, .exec (some "1,x") true false "]"⟩ =
      ⟨1, "", [], ["input parsing error: could not parse input 'x' as int: " ++
        "invalid digit found in string"]⟩ ∧
    ends ⟨none, none, none, .exec none true true "+[]"⟩ =
      ⟨0, "0000: add +1\n0001: jz 0003\n0002: jnz 0002\n", [], []⟩ ∧
    ends ⟨none, none, none, .exec none false false "+[]"⟩ =
      ⟨1, "", [], ["execution error: program exceeded the maximum number of instructions " ++
        "allowed (9)"]⟩ ∧
    ends ⟨none, none, some 1, .exec (some "72,10") false false ",.,."⟩ =
      ⟨0, "H\n<EOF>\n", ["  Cells used:        1", "  Instructions:      4",
        "  Compilation in:    1.50µs", "  Execution in:      1.50µs",
        "  Total:             3.00µs"], []⟩ ∧
    ends ⟨none, some 4, none, .exec (some "72,10") true false ",.,."⟩ =
      ⟨0, "\x7b\n  \"output\": \"H\\n\",\n  \"instructions_executed\": 4,\n" ++
        "  \"memory_cells_used\": 1\n\x7d\n", [], []⟩ ∧
    ends ⟨none, none, none, .encode ["\x01"]⟩ = ⟨0, "+.\n", [], []⟩ ∧
    ends ⟨none, none, none, .shorten "+++"⟩ = ⟨0, "+3\n", [], []⟩ ∧
    perform formats circular id ⟨none, none, none, .shorten "--"⟩ = ⟨0, "-2\n", [], []⟩ := by
  intro files circular reason formats ends
  have hformats : formats.Lossless := Formats.lossless_usual _
  have h (i : Invocation) := perform_all_or_nothing hformats files (1500 * ·) i
  have hread : files.read defaultPath = .ok "[limits]\nmax_instructions = 9\n" := by decide +kernel
  have hgiven : Configured formats.config files none ⟨some 9, none⟩ :=
    .written (.default (by decide +kernel)) hread (by decide +kernel)
  have hno : files.read "no.toml" = .error .notFound := by decide +kernel
  have hbad : files.read "bad.toml" = .ok "=" := by decide +kernel
  have hnoToml : formats.config "=" = .error reason := by decide +kernel
  have hloop : Program.compile "+[]" = .ok _ := rfl
  have hecho : Program.compile ",.,." = .ok _ := rfl
  have hinputs : inputsOf (some "72,10") = .ok [72, 10] := by decide +kernel
  refine ⟨hformats, ?_, ?_, ?_, ?_, ?_, ?_, ?_, ?_, ?_, ?_⟩
  · have hfirst := (h ⟨some "no.toml", none, none, .exec (some "x") false false "]"⟩).2.1 _
      ⟨.config (.unreadable (.named _) hno), fun g _ => Nat.zero_le _⟩
    exact hfirst.trans (by decide +kernel)
  · have hfirst := (h ⟨some "bad.toml", none, none, .shorten "+"⟩).2.1 _
      ⟨.config (.invalid (.named _) hbad hnoToml), fun g _ => Nat.zero_le _⟩
    exact hfirst.trans (by decide +kernel)
  · have hfirst := (h ⟨none, some 0, none, .exec (some "1,x") true false "]"⟩).2.1
      (.inputs ⟨"x", .invalidDigit⟩) ⟨.inputs rfl (by decide +kernel), fun g hg => ?_⟩
    · exact hfirst.trans (by decide +kernel)
    · cases hg with
      | config he => cases he.load_eq.symm.trans hgiven.load_eq
      | _ => simp [Failure.stage]
  · obtain ⟨-, hlisted, -⟩ :=
      (h ⟨none, none, none, .exec none true true "+[]"⟩).2.2.2 _ hgiven
    exact ((hlisted _ _ _ rfl).2 _ ⟨[], rfl⟩ hloop).trans (by decide +kernel)
  · obtain ⟨-, -, hruns⟩ := (h ⟨none, none, none, .exec none false false "+[]"⟩).2.2.2 _ hgiven
    have hfailed := (hruns _ _ _ [] _ rfl rfl hloop).1 (.exceeded .instructions 9)
      (by decide +kernel)
    exact hfailed.trans (by decide +kernel)
  · obtain ⟨-, -, hruns⟩ :=
      (h ⟨none, none, some 1, .exec (some "72,10") false false ",.,."⟩).2.2.2 _ hgiven
    obtain ⟨r, hr, hends, -⟩ := (hruns _ _ _ _ _ rfl hinputs hecho).2 ⟨"H\n", 4, 1⟩
      (by decide +kernel)
    cases hr with
    | shown htext =>
      rw [← htext.shown_eq] at hends
      exact hends.trans (by decide +kernel)
  · obtain ⟨-, -, hruns⟩ :=
      (h ⟨none, some 4, none, .exec (some "72,10") true false ",.,."⟩).2.2.2 _ hgiven
    obtain ⟨r, hr, hends, -⟩ := (hruns _ _ _ _ _ rfl hinputs hecho).2 ⟨"H\n", 4, 1⟩
      (by decide +kernel)
    cases hr with
    | json htext =>
      cases htext
      exact hends.trans (by decide +kernel)
  · have hnone (f : Failure) :
        ¬ Obstacle formats files ⟨none, none, none, .encode ["\x01"]⟩ f := by
      rintro (he | _ | _ | _ | ⟨hjob, he⟩)
      · cases he.load_eq.symm.trans hgiven.load_eq
      · contradiction
      · contradiction
      · contradiction
      · cases hjob
        cases he.symm.trans program_one
    exact (h ⟨none, none, none, .encode ["\x01"]⟩).2.2.1 _ hnone (.encoded rfl program_one)
  · have hshort := ((h ⟨none, none, none, .shorten "+++"⟩).2.2.2 _ hgiven).1 _ rfl
    exact hshort.trans (by decide +kernel)
  · have hshort := ((perform_all_or_nothing hformats circular id
      ⟨none, none, none, .shorten "--"⟩).2.2.2 _ (.missing rfl rfl)).1 _ rfl
    exact hshort.trans (by decide +kernel)

end Tapecraft.Cli
