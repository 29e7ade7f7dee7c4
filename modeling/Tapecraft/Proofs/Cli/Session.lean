import Mathlib
import Tapecraft.Cli.Terminal

/-! # What the program leaves behind

In a session of which everything is known, the program ends as its job does. A job that fails
leaves one error in the log beside an empty output, and of a job that is done the whole result has
been written.
-/
namespace Tapecraft.Cli

namespace Session
variable (s : Session)

theorem run_isThere (path : String) :
    (Terminal.isThere path : StateM Session _).run s = pure (s.files.isThere path, s) := rfl

theorem run_clock :
    (Terminal.clock : StateM Session _).run s =
      pure (s.times s.looks, { s with looks := s.looks + 1 }) := rfl

theorem run_print (text : String) :
    (Terminal.print text : StateM Session _).run s =
      pure ((), { s with output := s.output ++ text }) := rfl

theorem run_report (line : String) :
    (Terminal.report line : StateM Session _).run s =
      pure ((), { s with reports := s.reports ++ [line] }) := rfl

theorem run_forM_report (lines : List String) :
    (lines.forM Terminal.report : StateM Session _).run s =
      pure ((), { s with reports := s.reports ++ lines }) := by
  induction lines generalizing s with
  | nil =>
    rw [List.append_nil]
    rfl
  | cons line lines ih =>
    have hcons : ((line :: lines).forM Terminal.report : StateM Session Unit) =
        (do Terminal.report line; lines.forM Terminal.report) := rfl
    rw [hcons, StateT.run_bind, run_report, pure_bind, ih, List.append_assoc]
    rfl

theorem run_configure (reader : Config.Reader) (path : Option String) :
    (configure reader path : StateM Session _).run s =
      pure (Config.load reader s.files path, s) := by
  cases path with
  | some path => rfl
  | none =>
    simp only [configure, Config.load, Option.isNone_none, if_true, StateT.run_bind, run_isThere,
      pure_bind]
    cases s.files.isThere Config.defaultPath <;> rfl

end Session

section Perform
open Session Config
variable {formats : Formats} {files : Files} {times : ℕ → ℕ} {i : Invocation}

/-- The clock is looked at around the preparation of the job, and then around the rest. -/
theorem perform_eq : perform formats files times i =
    match run formats files i with
    | .error f => ⟨1, "", [], [f.message]⟩
    | .ok r => ⟨0, r.output,
        r.summed.elim [] fun o => summary o ⟨times 1 - times 0, times 3 - times 2⟩, []⟩ := by
  simp only [perform, carryOut, StateT.run_bind, run_configure, pure_bind]
  cases hload : load formats.config files i.config with
  | error e =>
    have hrun : run formats files i = .error (.config e) := by
      rw [run, hload]
      rfl
    rw [hrun]
    rfl
  | ok limits =>
    have hrun : run formats files i = i.job.inputs.bind fun inputs =>
        (prepare (i.override limits) inputs i.job).bind (Stage.complete formats) := by
      rw [run, hload]
      rfl
    rw [hrun]
    cases i.job.inputs with
    | error f => rfl
    | ok inputs =>
      simp only [StateT.run_bind, run_clock, pure_bind, Except.bind]
      cases prepare (i.override limits) inputs i.job with
      | error f => rfl
      | ok stage =>
        simp only [StateT.run_bind, run_clock, pure_bind]
        cases stage.complete formats with
        | error f => rfl
        | ok r =>
          obtain ⟨output, summed⟩ := r
          simp only [StateT.run_bind, run_clock, run_print, pure_bind, String.empty_append]
          cases summed with
          | none => rfl
          | some o =>
            simp only [StateT.run_bind, run_forM_report, pure_bind]
            rfl

end Perform

end Tapecraft.Cli
