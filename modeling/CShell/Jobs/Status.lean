import CShell.Execute.Plan
import CShell.Jobs.Moves

/-!
# The status of a pipeline

`csh_execute_pipeline`, `context_pipeline` and `job_status` each compute the status of a
pipeline from the wait statuses of its stages.  The first two map every status as its
stage is waited for and fold the results from the left; the third looks through the raw
statuses from the right and maps the one it selects.

* `Stage`, `Stage.wait` — `struct csh_pipeline_stage` and `stage_wait`.
* `executePipelineStatus` — the end of `csh_execute_pipeline`.  That of `context_pipeline`
  is `Execute.pipelineStatus`, and `job_status` is `Job.status`.
* `pipelineCode` — the status a pipeline should have.
* `pipeline_statuses_agree` — **all three are that status.**

## References

`src/execute.c` (`child_status`, `stage_wait`, `csh_execute_pipeline`,
`context_pipeline`), `src/jobs.c` (`job_status`).
-/

namespace CShell

namespace Jobs

open List
open Execute (Execution)

/-- `child_status`. -/
def childStatus (status : WaitStatus) : ℤ :=
  if status.ifExited then status.exitStatus
  else if status.ifSignaled then 128 + status.termSig
  else 1

/-- `struct csh_pipeline_stage`. -/
structure Stage where
  pid : ℤ
  waitStatus : WaitStatus := .exited 0
  status : ℤ := 0
  reaped : Bool := false
  completed : Bool := false
  deriving DecidableEq, Repr, Inhabited

/-- `stage_wait`, when `waitpid` reports how the stage ended. -/
def Stage.wait (stage : Stage) (ended : Ended) : Stage :=
  { stage with waitStatus := ended.status, status := childStatus ended.status
               reaped := true, completed := true }

/-- The status `csh_execute_pipeline` gives to its stages once all are waited for. -/
def executePipelineStatus (pipefail negated : Bool) (stages : List Stage) : ℤ :=
  let execution : Execution :=
    { category := .pipeline, status := (stages.getLastD default).status }
  let execution := if pipefail then
      stages.foldl
        (fun execution stage =>
          if stage.status ≠ 0 then { execution with status := stage.status } else execution)
        execution
    else execution
  if negated && !execution.exitRequested && execution.control = .none then
    if execution.status = 0 then 1 else 0
  else execution.status

/-- The exit code, or `128` plus the signal number. -/
def Ended.code : Ended → ℕ
  | exited code => code
  | signaled number => 128 + number

/-- The status of a pipeline: that of the last stage, or with `pipefail` of the last stage
that failed, if any; negated by `!`. -/
def pipelineCode (pipefail negated : Bool) (ends : List Ended) : ℕ :=
  let codes := ends.map Ended.code
  let last := codes.getLastD 0
  let status := if pipefail then (codes.reverse.find? fun code => code != 0).getD last else last
  if negated then (if status = 0 then 1 else 0) else status

/-! ### Mapping a status -/

theorem childStatus_status (ended : Ended) : childStatus ended.status = ended.code := by
  cases ended with
  | exited code => rfl
  | signaled number => exact (Nat.cast_add 128 number).symm

theorem exitCode_status (ended : Ended) : Job.exitCode ended.status = ended.code :=
  childStatus_status ended

/-- A raw status is one of failure exactly when its code is not zero. -/
theorem failing_status (ended : Ended) : Job.failing ended.status = (ended.code != 0) := by
  cases ended with
  | exited code => rfl
  | signaled number =>
    have hne : (128 + number != 0) = true := by simp
    exact hne.symm

/-! ### Looking from the right -/

/-- A fold that keeps the last value that is not zero finds the first from the right. -/
theorem foldl_last_nonzero (codes : List ℕ) (start : ℤ) :
    (codes.map Nat.cast).foldl (fun (status : ℤ) s => if s ≠ 0 then s else status) start =
      ((codes.reverse.find? fun code => code != 0).map Nat.cast).getD start := by
  induction codes using reverseRecOn with
  | nil => rfl
  | append_singleton codes code ih =>
    rw [map_append, foldl_append, ih, reverse_append]
    by_cases hzero : code = 0
    · subst hzero
      rfl
    · have hfound : (code != 0) = true := by simpa using hzero
      simp [hfound, hzero]

theorem getLastD_map_cast (codes : List ℕ) :
    (codes.map (Nat.cast : ℕ → ℤ)).getLastD 0 = (codes.getLastD 0 : ℕ) := by
  simp only [getLastD_eq_getLast?, getLast?_map]
  exact Option.getD_map Nat.cast 0 _

/-- `!` after the cast. -/
theorem negated_cast (negated : Bool) (status : ℕ) :
    (if negated then (if (status : ℤ) = 0 then 1 else 0) else (status : ℤ)) =
      ((if negated then (if status = 0 then 1 else 0) else status : ℕ) : ℤ) := by
  cases negated with
  | false => rfl
  | true =>
    by_cases hzero : status = 0
    · subst hzero
      rfl
    · simp [hzero]

theorem pipelineStatus_codes (pipefail negated : Bool) (ends : List Ended) :
    Execute.pipelineStatus pipefail negated (ends.map fun e => (e.code : ℤ)) =
      pipelineCode pipefail negated ends := by
  unfold Execute.pipelineStatus pipelineCode
  dsimp only
  rw [show (ends.map fun e => (e.code : ℤ)) = (ends.map Ended.code).map Nat.cast by
    rw [map_map]; rfl]
  rw [getLastD_map_cast, foldl_last_nonzero, ← negated_cast]
  cases pipefail with
  | false => rfl
  | true =>
    have hcast := Option.getD_map (Nat.cast : ℕ → ℤ) ((ends.map Ended.code).getLastD 0)
      ((ends.map Ended.code).reverse.find? fun code => code != 0)
    simp only [if_true, hcast]

/-! ### The three computations -/

/-- The fold over the stages changes the status alone. -/
theorem foldl_execution (stages : List Stage) (execution : Execution) :
    stages.foldl
      (fun execution stage =>
        if stage.status ≠ 0 then { execution with status := stage.status } else execution) execution =
      { execution with
        status := (stages.map Stage.status).foldl (fun status s => if s ≠ 0 then s else status)
          execution.status } := by
  induction stages generalizing execution with
  | nil => rfl
  | cons stage stages ih =>
    rw [foldl_cons, ih, map_cons, foldl_cons]
    split <;> rfl

/-- `csh_execute_pipeline` and `context_pipeline` fold alike: nothing in a pipeline of
several stages asks the shell itself to exit or to leave a loop. -/
theorem executePipelineStatus_eq (pipefail negated : Bool) (stages : List Stage) :
    executePipelineStatus pipefail negated stages =
      Execute.pipelineStatus pipefail negated (stages.map Stage.status) := by
  have hlast : (stages.map Stage.status).getLastD 0 = (stages.getLastD default).status := by
    simp only [getLastD_eq_getLast?, getLast?_map]
    exact Option.getD_map Stage.status default _
  unfold executePipelineStatus Execute.pipelineStatus
  dsimp only
  rw [hlast, foldl_execution]
  cases pipefail <;> cases negated <;> rfl

/-- The status `job_status` selects, from the statuses alone. -/
theorem Job.selected_status (job : Job) :
    job.selected.status =
      let statuses := job.processes.map Process.status
      let last := statuses.getLastD (.exited 0)
      if job.pipefail then (statuses.reverse.find? failing).getD last else last := by
  have hlast : (job.processes.map Process.status).getLastD (.exited 0) =
      (job.processes.getLastD {}).status := by
    simp only [getLastD_eq_getLast?, getLast?_map]
    exact Option.getD_map Process.status {} _
  unfold selected
  dsimp only
  cases job.pipefail with
  | false => exact hlast.symm
  | true =>
    rw [if_pos rfl, if_pos rfl, hlast, ← map_reverse, find?_map]
    exact (Option.getD_map Process.status _ _).symm

theorem Job.status_of_complete {job : Job} (hc : job.complete = true) :
    job.status =
      let ended := exitCode job.selected.status
      if job.negated then (if ended = 0 then 1 else 0) else ended := by
  have hstopped : job.stopped = false := by
    rw [Bool.eq_false_iff]
    intro hs
    rw [complete_of_stopped hs] at hc
    cases hc
  unfold status
  simp only [hstopped, Bool.false_eq_true, if_false]

theorem Job.status_code {job : Job} {ends : List Ended} (hc : job.complete = true)
    (hends : job.processes.map Process.status = ends.map Ended.status) :
    job.status = pipelineCode job.pipefail job.negated ends := by
  rw [status_of_complete hc, selected_status, hends]
  unfold pipelineCode
  dsimp only
  rw [← negated_cast]
  have hlast : exitCode ((ends.map Ended.status).getLastD (.exited 0)) =
      ((ends.map Ended.code).getLastD 0 : ℕ) := by
    simp only [getLastD_eq_getLast?, getLast?_map]
    cases ends.getLast? with
    | none => rfl
    | some ended => exact exitCode_status ended
  cases job.pipefail with
  | false => rw [if_neg Bool.false_ne_true, if_neg Bool.false_ne_true, hlast]
  | true =>
    rw [if_pos rfl, if_pos rfl, ← map_reverse, ← map_reverse, find?_map,
      find?_map]
    have hfailing : failing ∘ Ended.status = (fun code => code != 0) ∘ Ended.code :=
      funext failing_status
    rw [hfailing]
    cases ends.reverse.find? ((fun code => code != 0) ∘ Ended.code) with
    | none => rw [Option.map_none, Option.map_none, Option.getD_none, Option.getD_none, hlast]
    | some ended =>
      rw [Option.map_some, Option.map_some, Option.getD_some, Option.getD_some, exitCode_status]

/-- The statuses of stages that were waited for. -/
theorem status_wait (stages : List Stage) (ends : List Ended) (h : stages.length = ends.length) :
    (List.zipWith Stage.wait stages ends).map Stage.status = ends.map fun e => (e.code : ℤ) := by
  induction ends generalizing stages with
  | nil =>
    obtain rfl := eq_nil_of_length_eq_zero h
    rfl
  | cons ended ends ih =>
    cases stages with
    | nil => cases h
    | cons stage stages =>
      rw [zipWith_cons_cons, map_cons, map_cons, ih stages (by simpa using h)]
      exact congrArg (· :: _) (childStatus_status ended)

/-- **The three computations agree.**  However the stages ended, for every
setting of `pipefail` and either negation, `csh_execute_pipeline`, `context_pipeline` and
`job_status` of the completed job give the status of the last stage, or with `pipefail`
that of the last stage that failed: its exit code or `128` plus its signal, negated if
the pipeline is. -/
theorem pipeline_statuses_agree (pipefail negated : Bool) (ends : List Ended)
    (stages : List Stage) (hstages : stages.length = ends.length) (job : Job)
    (hcomplete : job.complete = true)
    (hends : job.processes.map Process.status = ends.map Ended.status)
    (hpipefail : job.pipefail = pipefail) (hnegated : job.negated = negated) :
    let reaped := zipWith Stage.wait stages ends
    executePipelineStatus pipefail negated reaped = pipelineCode pipefail negated ends ∧
      Execute.pipelineStatus pipefail negated (reaped.map Stage.status) =
        pipelineCode pipefail negated ends ∧
      job.status = pipelineCode pipefail negated ends := by
  intro reaped
  have hstatuses : reaped.map Stage.status = ends.map fun e => (e.code : ℤ) :=
    status_wait stages ends hstages
  refine ⟨?_, ?_, ?_⟩
  · rw [executePipelineStatus_eq, hstatuses, pipelineStatus_codes]
  · rw [hstatuses, pipelineStatus_codes]
  · rw [Job.status_code hcomplete hends, hpipefail, hnegated]

/-- A pipeline whose first stage fails, whose second is killed and whose third succeeds. -/
theorem pipeline_statuses_agree_signal :
    let ends : List Ended := [.exited 3, .signaled 9, .exited 0]
    let job : Job :=
      { id := 1, text := [], grouped := false, background := true, negated := false, pipefail := true
        processes := ends.map fun e => { pid := 100, status := e.status, done := true } }
    job.status = 137 ∧
      executePipelineStatus true false
        (zipWith Stage.wait [⟨100, .exited 0, 0, false, false⟩, ⟨101, .exited 0, 0, false, false⟩,
          ⟨102, .exited 0, 0, false, false⟩] ends) = job.status := by
  intro ends job
  have h := pipeline_statuses_agree true false ends
    [⟨100, .exited 0, 0, false, false⟩, ⟨101, .exited 0, 0, false, false⟩,
      ⟨102, .exited 0, 0, false, false⟩] rfl job (by decide) (by decide) rfl rfl
  exact ⟨by decide, h.1.trans h.2.2.symm⟩

end Jobs

end CShell
