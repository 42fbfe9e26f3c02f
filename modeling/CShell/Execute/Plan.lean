import CShell.Execute.Command

/-!
# Running a plan

`execute_plan` and what it is made of: the compound commands, the processes a
subshell or a pipeline is forked into, and the end every node shares, where
`errexit` is applied, `$?` is set and pending traps are run.

A child process is run to its end in a copy of the shell.  The world it sees is
its own, so stages of one pipeline need not see each other's effects in any
particular order; a background child is started and not followed further.

## Main definitions

* `loopTransfer` — what a loop makes of a transfer out of its body.
* `childRun`, `contextJob`, `contextFork`, `contextPipeline` — forked execution.
* `executePlan` — `execute_plan`, on fuel.

## References

`src/execute.c`.
-/

namespace CShell.Execute

variable {W N : Type}

/-! ### Errexit -/

/-- `apply_errexit` for a node. -/
def applyErrexit (sh : Shell W N) (plan : Plan N) (result : Execution) : Execution :=
  let info := sh.state.info
  let result := match plan with
    | .simple _ => { result with errexitIgnored := false }
    | _ => result
  let result := if info.errexitIgnored ≠ 0 then { result with errexitIgnored := true } else result
  let composed := match plan with
    | .list _ | .and _ _ | .or _ _ => true
    | _ => false
  if sh.state.option Opt.errexit && result.status ≠ 0 && info.errexitIgnored = 0 &&
      !result.errexitIgnored && result.control = .none && !result.jobSuspended && !composed then
    { result with exitRequested := true }
  else result

/-! ### Loops -/

/-- What `loop_transfer` returns: 0, 1 or 2. -/
inductive Transfer
  | ordinary
  | unwind
  | again
  deriving DecidableEq, Repr, Inhabited

/-- `--levels` on an `unsigned`. -/
def decrement : ℕ → ℕ
  | 0 => 2 ^ 32 - 1
  | levels + 1 => levels

/-- `loop_transfer`. -/
def loopTransfer (result : Execution) : Transfer × Execution :=
  if result.control ≠ .breakLoop ∧ result.control ≠ .continueLoop then (.ordinary, result)
  else
    let levels := decrement result.levels
    if levels ≠ 0 then (.unwind, { result with levels })
    else (if result.control = .continueLoop then .again else .unwind,
      { result with levels, control := .none })

/-- An answer as the enclosing loop sees it, and what the loop does with it. -/
def Answer.transferred (a : Answer W N) : Transfer × Answer W N :=
  let (transfer, result) := loopTransfer a.result
  (transfer, { a with result })

section Callbacks

variable (env : Env W N) (exec : Shell W N → Plan N → Option (Answer W N))

/-- `execute_test`. -/
def executeTest (sh : Shell W N) (plan : Plan N) : Option (Answer W N) := do
  let depth := sh.state.info.errexitIgnored
  let answer ← exec (sh.setErrexitIgnored (depth + 1)) plan
  some { answer with shell := answer.shell.setErrexitIgnored depth }

/-- The branches of an `if`. -/
def ifBranches (otherwise : Option (Plan N)) :
    Shell W N → List (Plan N × Plan N) → Execution → Option (Answer W N)
  | sh, [], result =>
    match otherwise with
    | some body => exec sh body
    | none => some { result := { result with status := 0 }, shell := sh }
  | sh, (condition, body) :: branches, _ => do
    let test ← executeTest exec sh condition
    if test.failure.isSome || halted test.shell test.result then some test
    else if test.result.status = 0 then exec test.shell body
    else ifBranches otherwise test.shell branches test.result

/-- The iterations of `while` and `until`, with the status of the last body and
whether it was exempt from `errexit`. -/
def loopClause (isWhile : Bool) (condition body : Plan N) :
    ℕ → ℤ → Bool → Shell W N → Option (Answer W N)
  | 0, _, _, _ => none
  | fuel + 1, last, lastIgnored, sh => do
    let tested ← executeTest exec sh condition
    let (transfer, test) := tested.transferred
    if test.failure.isSome || transfer = .unwind || halted test.shell test.result then some test
    else if transfer = .again then loopClause isWhile condition body fuel last lastIgnored test.shell
    else if (test.result.status = 0) ≠ (isWhile = true) then
      some { test with
        result := { test.result with status := last, errexitIgnored := lastIgnored } }
    else
      let ran ← exec test.shell body
      let (transfer, run) := ran.transferred
      if run.failure.isSome || transfer = .unwind || halted run.shell run.result then some run
      else
        loopClause isWhile condition body fuel run.result.status run.result.errexitIgnored run.shell

/-- The words of a `for`, each expanded in turn. -/
def forWords : Shell W N → List N → List Bytes → Except Failure (List Bytes) × Shell W N
  | sh, [], words => (.ok words, sh)
  | sh, word :: rest, words =>
    let (prepared, sh) := (env.prepareWord word .argument).on sh
    match prepared with
    | .error failure => (.error failure, sh)
    | .ok fields => forWords sh rest (words ++ fields)

/-- The assignment of a loop variable. -/
def assignLoopVariable (sh : Shell W N) (name word : Bytes) : StateResult × Shell W N :=
  match sh.state.setVariable name word with
  | (.ok, state) =>
    if state.option Opt.allexport then
      let (assigned, state) := state.updateAttributes name Attr.exported 0
      (assigned, sh.withState state)
    else (.ok, sh.withState state)
  | (assigned, state) => (assigned, sh.withState state)

/-- The iterations of a `for`. -/
def forLoop (name : Bytes) (body : Plan N) : List Bytes → Answer W N → Option (Answer W N)
  | [], answer => some answer
  | word :: words, answer => do
    let (assigned, sh) := assignLoopVariable answer.shell name word
    if assigned ≠ .ok then
      some { answer with failure := some ⟨"cannot assign loop variable", 1⟩, shell := sh }
    else
      let ran ← exec sh body
      let (transfer, run) := ran.transferred
      if run.failure.isSome || transfer = .unwind || halted run.shell run.result then some run
      else forLoop name body words run

/-- `for` in `compound_body`. -/
def forClause (sh : Shell W N) (name : N) (words : Option (List N)) (body : Plan N) :
    Option (Answer W N) := do
  let (prepared, sh) := (env.prepareWord name .redirection).on sh
  match prepared with
  | .error failure => some { failure := some failure, shell := sh }
  | .ok [name] =>
    let (expanded, sh) := match words with
      | some words => forWords env sh words []
      | none => (.ok (sh.state.arguments.take sh.state.info.argumentCount), sh)
    match expanded with
    | .error failure => some { failure := some failure, shell := sh }
    | .ok words =>
      let depth := sh.context.loopDepth
      let answer ← forLoop exec name body words { shell := sh.setLoopDepth (depth + 1) }
      some { answer with shell := answer.shell.setLoopDepth depth }
  | .ok _ => some { failure := some ⟨"invalid loop name", 2⟩, shell := sh }

/-- Whether one of a `case` item's patterns matches. -/
def casePatterns (word : Bytes) : Shell W N → List N → Except Failure Bool × Shell W N
  | sh, [] => (.ok false, sh)
  | sh, pattern :: patterns =>
    let (prepared, sh) := (env.prepareWord pattern .pattern).on sh
    match prepared with
    | .error failure => (.error failure, sh)
    | .ok fields =>
      if env.fnmatch (fields.headD []) word then (.ok true, sh) else casePatterns word sh patterns

/-- The items of a `case`, from one on. -/
def caseItems (word : Bytes) :
    Bool → List (List N × Plan N × Bool) → Answer W N → Option (Answer W N)
  | _, [], answer => some answer
  | fallthrough, (patterns, body, falls) :: items, answer => do
    let (matched, sh) :=
      if fallthrough then (.ok true, answer.shell) else casePatterns env word answer.shell patterns
    match matched with
    | .error failure => some { answer with failure := some failure, shell := sh }
    | .ok false => caseItems word false items { answer with shell := sh }
    | .ok true =>
      -- an empty body is not run at all, so `$?` is left to the end of the command
      let ran ← (if body.count ≠ 0 then exec sh body else some { answer with shell := sh })
      if ran.failure.isSome || halted ran.shell ran.result || !falls then some ran
      else caseItems word true items ran

/-- `case` in `compound_body`. -/
def caseClause (sh : Shell W N) (word : N) (items : List (List N × Plan N × Bool)) :
    Option (Answer W N) :=
  let (prepared, sh) := (env.prepareWord word .redirection).on sh
  match prepared with
  | .error failure => some { failure := some failure, shell := sh }
  | .ok fields => caseItems env exec (fields.headD []) false items { shell := sh }

/-! ### Forked execution -/

/-- The shell a child starts as; one under job control may fail to set that up. -/
def childShell (jobs : Bool) (index : ℕ) (sh : Shell W N) : Bool × Shell W N :=
  let child : Shell W N :=
    { world := env.child index sh.world
      state := (sh.state.updateOptions 0 Opt.interactive).2
      context := { jobs, traps := sh.context.traps } }
  if jobs then Query.on env.jobsCreate child else (true, child)

/-- `context_child`, from the fork on: the exit status and the world left behind. -/
def childRun (fuel : ℕ) (jobs : Bool) (index : ℕ) (sh : Shell W N) (plan : Plan N) :
    Option (ℤ × W) := do
  let (created, child) := childShell env jobs index sh
  if !created then some (1, child.world)
  else
    let answer ← (match plan with
      | .simple tree => runtimeSimple env exec fuel true child tree
      | _ => exec child plan)
    match answer.replaced with
    | some status => some (status % 256, answer.shell.world)
    | none =>
      let pending ← executePendingTraps env exec fuel answer.result answer.shell
      let settled := pending.shell.setStatus pending.result.status
      let (status, left) ← executeExitTrap env exec fuel settled
      some (status % 256, left.world)

/-- The statuses of the children of one fork; one that a signal ended is not run
to its end. -/
def childrenRun (fuel : ℕ) (jobs : Bool) (ended : ℕ → Ended) (sh : Shell W N) :
    ℕ → List (Plan N) → Option (List ℤ × List W)
  | _, [] => some ([], [])
  | index, plan :: plans => do
    let (status, world) ← (match ended index with
      | .signalled number => some ((128 + number : ℤ), env.child index sh.world)
      | .exited => childRun env exec fuel jobs index sh plan)
    let (statuses, worlds) ← childrenRun fuel jobs ended sh (index + 1) plans
    some (status :: statuses, world :: worlds)

/-- The status of a pipeline from those of its stages. -/
def pipelineStatus (pipefail negated : Bool) (statuses : List ℤ) : ℤ :=
  let last := statuses.getLastD 0
  let status :=
    if pipefail then statuses.foldl (fun status s => if s ≠ 0 then s else status) last else last
  if negated then (if status = 0 then 1 else 0) else status

/-- What both ways of waiting do once the children are gone. -/
def collect (fuel : ℕ) (jobs pipefail negated : Bool) (stages : List (Plan N)) (ended : ℕ → Ended)
    (forked sh : Shell W N) (result : Execution) : Option (Answer W N) := do
  let (statuses, worlds) ← childrenRun env exec fuel jobs ended forked 0 stages
  some { result := { result with status := pipelineStatus pipefail negated statuses }
         shell := { sh with world := env.join sh.world worlds } }

/-- The shell the stages of a pipeline are forked from. -/
def stageShell (negated : Bool) (sh : Shell W N) : Shell W N :=
  if negated then sh.setErrexitIgnored (sh.state.info.errexitIgnored + 1) else sh

/-- `context_job` on a plan.  A pipeline is one job of several processes. -/
def contextJob (fuel : ℕ) (plan : Plan N) (asynchronous : Bool) (sh : Shell W N) :
    Option (Answer W N) := do
  let (category, negated, stages) := match plan with
    | .pipeline negated first rest => (Category.pipeline, negated, first :: rest)
    | _ => (Category.external, false, [plan])
  let pipefail := sh.state.option Opt.pipefail
  let result : Execution := { category }
  let (forked, sh) := Query.on (env.fork stages.length asynchronous) sh
  match forked with
  | .error failure => some { result, failure := some failure, shell := sh }
  | .ok pid =>
    if asynchronous then
      some { result, shell := sh.withState (sh.state.setBackground pid).2 }
    else
      let forked := stageShell negated sh
      let (waited, sh) := Query.on (env.foreground stages.length) sh
      match waited with
      | .failed failure => some { result, failure := some failure, shell := sh }
      | .left status jobSuspended =>
        some { result := { result with status, jobSuspended }, shell := sh }
      | .completed ended =>
        collect env exec fuel true pipefail negated stages ended forked sh result

/-- `!` on the answer of a command that ran in the shell itself: a transfer, an exit
and an error are passed on. -/
def Answer.inverted (a : Answer W N) : Answer W N :=
  if a.failure.isNone && !a.result.exitRequested && a.result.control = .none then
    { a with result := { a.result with status := if a.result.status = 0 then 1 else 0 } }
  else a

/-- `context_pipeline`. -/
def contextPipeline (fuel : ℕ) (negated : Bool) (first : Plan N) (rest : List (Plan N))
    (asynchronous : Bool) (sh : Shell W N) : Option (Answer W N) := do
  let pipefail := sh.state.option Opt.pipefail
  match rest with
  | [] =>
    let answer ← exec sh first
    some (if negated then answer.inverted else answer)
  | _ =>
    if sh.context.jobs then
      contextJob env exec fuel (.pipeline negated first rest) asynchronous sh
    else
      let stages := first :: rest
      let (forked, sh) := Query.on (env.fork stages.length asynchronous) sh
      match forked with
      | .error failure => some { failure := some failure, shell := sh }
      | .ok pid =>
        let result : Execution := { category := .pipeline }
        if asynchronous then
          some { result, shell := (sh.withState (sh.state.setBackground pid).2).setStatus 0 }
        else
          let forked := stageShell negated sh
          let (waited, sh) := Query.on (env.stageWait stages.length) sh
          match waited with
          | .error failure => some { failure := some failure, shell := sh }
          | .ok ended => collect env exec fuel false pipefail negated stages ended forked sh result

/-- `context_fork`. -/
def contextFork (fuel : ℕ) (plan : Plan N) (asynchronous : Bool) (sh : Shell W N) :
    Option (Answer W N) := do
  if sh.context.jobs then contextJob env exec fuel plan asynchronous sh
  else match asynchronous, plan with
    | true, .pipeline negated first (second :: rest) =>
      contextPipeline env exec fuel negated first (second :: rest) true sh
    | _, _ =>
      let (forked, sh) := Query.on (env.fork 1 asynchronous) sh
      match forked with
      | .error failure => some { failure := some failure, shell := sh }
      | .ok pid =>
        if asynchronous then
          some { shell := (sh.withState (sh.state.setBackground pid).2).setStatus 0 }
        else
          let forked := sh
          let (waited, sh) := Query.on (env.stageWait 1) sh
          match waited with
          | .error failure => some { failure := some failure, shell := sh }
          | .ok ended => collect env exec fuel false false false [plan] ended forked sh {}

/-! ### Nodes -/

/-- The items of a list. -/
def listItems (fuel : ℕ) : List (Bool × Plan N) → Answer W N → Option (Answer W N)
  | [], answer => some answer
  | (asynchronous, plan) :: items, answer => do
    let ran ← (
      if asynchronous then contextFork env exec fuel plan true answer.shell
      else exec answer.shell plan)
    if ran.failure.isSome || halted ran.shell ran.result then some ran
    else
      let (reaped, sh) := Query.on env.reap ran.shell
      match reaped with
      | some failure => some { ran with failure := some failure, shell := sh }
      | none => listItems fuel items { ran with shell := sh }

/-- `&&` and `||`: the right side runs if the left one's success is `wanted`. -/
def andOr (wanted : Bool) (left right : Plan N) (sh : Shell W N) : Option (Answer W N) := do
  let test ← executeTest exec sh left
  if test.failure.isNone && !halted test.shell test.result && decide (test.result.status = 0) == wanted
    then exec test.shell right
  else some test

/-- A compound command within its redirections. -/
def redirectedBody (tree : N) (body : Shell W N → Option (Answer W N)) (sh : Shell W N) :
    Option (Answer W N) := do
  let (redirected, sh) :=
    if env.hasRedirects tree then
      let ((redirected, _), sh) := (env.redirects tree {}).on sh
      (redirected, sh)
    else (.applied, sh)
  match redirected with
  | .unexpanded failure =>
    some { result := expansionFailed sh {}, failure := some failure, shell := sh }
  | .refused failure =>
    some { result := { redirectionFailed := true }, failure := some failure, shell := sh }
  | .applied =>
    let answer ← body sh
    let answer :=
      if answer.failure.isSome then
        { answer with result := expansionFailed answer.shell answer.result } else answer
    if env.hasRedirects tree then
      let (restored, sh) := Query.on (env.restore tree false) answer.shell
      some { answer with failure := restored <|> answer.failure, shell := sh }
    else some answer

/-- `while` and `until` in `compound_body`. -/
def whileClause (fuel : ℕ) (isWhile : Bool) (condition body : Plan N) (sh : Shell W N) :
    Option (Answer W N) := do
  let depth := sh.context.loopDepth
  let answer ← loopClause exec isWhile condition body fuel 0 false (sh.setLoopDepth (depth + 1))
  some { answer with shell := answer.shell.setLoopDepth depth }

/-- The pipeline node: `!` counts as a condition for what it negates. -/
def pipelineNode (fuel : ℕ) (negated : Bool) (first : Plan N) (rest : List (Plan N))
    (sh : Shell W N) : Option (Answer W N) := do
  let depth := sh.state.info.errexitIgnored
  let answer ← contextPipeline env exec fuel negated first rest false (stageShell negated sh)
  some { answer with
    result := if negated then { answer.result with errexitIgnored := true } else answer.result
    shell := answer.shell.setErrexitIgnored depth }

/-- The switch of `execute_plan`. -/
def planBody (fuel : ℕ) (sh : Shell W N) : Plan N → Option (Answer W N)
  | .simple tree => runtimeSimple env exec fuel false sh tree
  | .list items => listItems env exec fuel items { shell := sh }
  | .and left right => andOr exec true left right sh
  | .or left right => andOr exec false left right sh
  | .subshell tree body => contextFork env exec fuel (.brace tree body) false sh
  | .function tree name body =>
    match defineFunction env sh tree name body with
    | (some failure, sh) =>
      some { result := expansionFailed sh {}, failure := some failure, shell := sh }
    | (none, sh) => some { shell := sh }
  | .brace tree body => redirectedBody env tree (fun sh => exec sh body) sh
  | .ifClause tree branches otherwise =>
    redirectedBody env tree (fun sh => ifBranches exec otherwise sh branches {}) sh
  | .forClause tree name words body =>
    redirectedBody env tree (fun sh => forClause env exec sh name words body) sh
  | .loop tree isWhile condition body =>
    redirectedBody env tree (whileClause exec fuel isWhile condition body) sh
  | .caseClause tree word items =>
    redirectedBody env tree (fun sh => caseClause env exec sh word items) sh
  | .pipeline negated first rest => pipelineNode env exec fuel negated first rest sh

/-- The end of `execute_plan`, after the switch. -/
def planEnd (fuel : ℕ) (plan : Plan N) (answer : Answer W N) : Option (Answer W N) := do
  let answer := answer.failStatus
  -- a redirection failure is the status of the command, not an error of the shell
  let answer :=
    if answer.failure.isSome && answer.result.redirectionFailed then
      { answer with failure := none, result := { answer.result with redirectionFailed := false } }
    else answer
  let answer :=
    Answer.settled { answer with result := applyErrexit answer.shell plan answer.result }
  let traps ← executePendingTraps env exec fuel answer.result answer.shell
  some { traps with failure := traps.failure <|> answer.failure }

/-- `execute_plan` around the executor for its children. -/
def planStep (fuel : ℕ) (sh : Shell W N) (plan : Plan N) : Option (Answer W N) := do
  let (exhausted, sh) := Query.on env.stackExhausted sh
  if exhausted then
    some { result := expansionFailed sh { status := 1 }
           failure := some ⟨"execution stack exhausted", 1⟩, shell := sh }
  else if sh.noexec then
    some { result := { status := sh.state.info.lastStatus }, shell := sh }
  else
    let answer ← planBody env exec fuel sh plan
    planEnd env exec fuel plan answer

end Callbacks

/-- `execute_plan`.  The fuel bounds both the nesting of commands and the
iterations of each loop; `none` is a run that needs more. -/
def executePlan (env : Env W N) : ℕ → Shell W N → Plan N → Option (Answer W N)
  | 0, _, _ => none
  | fuel + 1, sh, plan => planStep env (executePlan env fuel) fuel sh plan

/-! ### A world of literal words -/

/-- An environment to run plans in: words stand for themselves, nothing fails, and
every command that is neither a function nor one of the executor's own is run by
`status` and entered in a log. -/
def Env.literal (status : Bytes → ℤ) : Env (List Bytes) (List Bytes) :=
  let logged (command : Command) : Prim (List Bytes) (Function (List Bytes)) ℤ :=
    ⟨fun log s => (status (command.argv.headD []), log ++ [command.argv.headD []], s),
      fun _ _ => rfl⟩
  let ran (command : Command) : Query (List Bytes) (Function (List Bytes)) (Except Failure ℤ) :=
    fun log _ => (.ok (status (command.argv.headD [])), log ++ [command.argv.headD []])
  { stackExhausted := fun log _ => (false, log)
    prepareWord := fun word _ => ⟨fun log s => (.ok word, log, s), fun _ _ => rfl⟩
    fnmatch := fun pattern word => pattern == word
    arguments := fun words => ⟨fun log s => (.ok { argv := words }, log, s), fun _ _ => rfl⟩
    validate := fun _ log _ => (.ok (), log)
    assignments := fun _ command => ⟨fun log s => (.ok command, log, s), fun _ _ => rfl⟩
    hasRedirects := fun _ => false
    redirects := fun _ command => ⟨fun log s => ((.applied, command), log, s), fun _ _ => rfl⟩
    restore := fun _ _ log _ => (none, log)
    trace := fun _ => ⟨fun log s => ((), log, s), fun _ _ => rfl⟩
    pathBuiltinCategory := fun name _ _ log _ =>
      (if specialName name then .specialBuiltin
        else if evaluationName name || utilityName name then .regularBuiltin else .external, log)
    isJobsBuiltin := fun _ => false
    jobsBuiltin := fun _ => ⟨fun log s => ((0, false), log, s), fun _ _ => rfl⟩
    launch := ran
    launchJob := fun command log s =>
      let (launched, log) := ran command log s
      (launched.map fun status => (status, false), log)
    replace := ran
    launchChild := ran
    builtinRun := logged
    utilityRun := logged
    trapsBuiltin := fun _ _ log _ => (0, log)
    aliasBuiltin := logged
    hashBuiltin := fun _ => ⟨fun log s => (.ok 0, log, s), fun _ _ => rfl⟩
    lookupReport := fun _ _ _ _ log _ => (0, log)
    lookupPath := fun path log _ => (some path, log)
    inputFromString := fun _ _ log _ => (.ok 0, log)
    inputFromFile := fun _ log _ => (.ok 0, log)
    parserNext := fun _ log _ => (.eof, log)
    reap := fun log _ => (none, log)
    prepare := fun _ log _ => (none, log)
    trapsFirstPending := fun log _ => (0, log)
    trapsTake := fun log _ => (.nothing, log)
    trapsExitAction := fun log _ => (.ok none, log)
    fork := fun _ _ log _ => (.ok 1, log)
    child := fun _ log => log
    jobsCreate := fun log _ => (true, log)
    stageWait := fun _ log _ => (.ok fun _ => .exited, log)
    foreground := fun _ log _ => (.completed fun _ => .exited, log)
    join := fun log _ => log }

/-- The environment in which `false` fails and everything else succeeds. -/
def Env.truth : Env (List Bytes) (List Bytes) :=
  .literal fun name => if name == ascii "false" then 1 else 0

/-- A simple command of literal words. -/
def words (text : List String) : Plan (List Bytes) := .simple (text.map ascii)

/-- A shell that has done nothing yet. -/
def Shell.fresh (options : UInt32) : Shell (List Bytes) (List Bytes) :=
  { world := [], state := { info := { options } }, context := {} }

end CShell.Execute
