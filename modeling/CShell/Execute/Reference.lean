import CShell.Execute.Plan

/-!
# A reference interpreter

The control flow of the shell language, stated on its own: a command ends in an
`Outcome`, and each compound command says what it makes of the outcomes of its
parts.  There is no result record to reset, no counter to restore and no flag to
carry an exemption: a condition is *run in* a frame that is one level deeper, and
`errexit` looks only at the commands it is about, in the frame they run in.

What a simple command does is given, as is everything the shell asks of the world
(expansions, redirections, forks).  The fuel is spent as in `executePlan`, so the
two can be compared run by run.

## Main definitions

* `Outcome`, `Report` — how a command ends, and what it leaves.
* `Event` — a command `errexit` looks at, as it finished.
* `Reference.step`, `reference` — the interpreter.
-/

namespace CShell.Execute

variable {W N : Type}

/-! ### Outcomes -/

/-- How a command ends. -/
inductive Outcome
  /-- It finished, and the next command may run. -/
  | finished (status : ℤ)
  /-- A special builtin failed in a shell that is not interactive. -/
  | aborted (status : ℤ)
  /-- The shell is to exit. -/
  | exited (status : ℤ)
  /-- The current function or dot script is to return. -/
  | returning (status : ℤ)
  /-- So many enclosing loops are to be left. -/
  | breaking (levels : ℕ)
  /-- The loop so many levels out is to go on with its next iteration. -/
  | continuing (levels : ℕ)
  deriving DecidableEq, Repr, Inhabited

namespace Outcome

/-- The status an outcome leaves in `$?`. -/
def status : Outcome → ℤ
  | finished status | aborted status | exited status | returning status => status
  | breaking _ | continuing _ => 0

/-- A loop control operand reaches no further than the outermost of `loops` loops. -/
def clamp (loops : ℕ) : Outcome → Outcome
  | breaking levels => breaking (min levels loops)
  | continuing levels => continuing (min levels loops)
  | outcome => outcome

/-- The effect of `!`. -/
def negate : Outcome → Outcome
  | finished status => finished (if status = 0 then 1 else 0)
  | aborted status => aborted (if status = 0 then 1 else 0)
  | outcome => outcome

/-- The end of a function: `return` goes no further. -/
def returned : Outcome → Outcome
  | returning status => finished status
  | outcome => outcome

/-- The effect of `errexit` on a command it looks at. -/
def demanded : Outcome → Outcome
  | finished status => if status ≠ 0 then exited status else finished status
  | aborted status => if status ≠ 0 then exited status else aborted status
  | outcome => outcome

end Outcome

/-- What a loop makes of an outcome of its condition or its body. -/
inductive Turn
  /-- The command ran through. -/
  | through (status : ℤ)
  /-- The next iteration is due. -/
  | next
  /-- The loop itself ends. -/
  | ended (outcome : Outcome)
  deriving DecidableEq, Repr, Inhabited

/-- `break n` and `continue n` act on the `n`-th loop from the inside. -/
def Outcome.turn : Outcome → Turn
  | .finished status => .through status
  | .breaking (levels + 2) => .ended (.breaking (levels + 1))
  | .breaking _ => .ended (.finished 0)
  | .continuing (levels + 2) => .ended (.continuing (levels + 1))
  | .continuing _ => .next
  | outcome => .ended outcome

/-! ### Reports -/

/-- A simple command, a subshell or a pipeline of several stages, as `errexit` sees
it: how it ended, and whether it was part of a condition. -/
structure Event where
  outcome : Outcome
  tested : Bool
  deriving DecidableEq, Repr, Inhabited

/-- The events a shell with `errexit` exits after: a failure outside every condition,
or an exit that the command asked for itself. -/
def Event.demanding (event : Event) : Bool :=
  match event.outcome with
  | .exited _ => true
  | .finished status | .aborted status => decide (status ≠ 0) && !event.tested
  | _ => false

/-- What a command leaves behind. -/
structure Report (W N : Type) where
  outcome : Outcome
  events : List Event := []
  shell : Shell W N

/-- A command that does nothing more. -/
def halt (outcome : Outcome) (sh : Shell W N) : Option (Report W N) :=
  some { outcome, shell := sh }

/-- One command, and what follows from its outcome. -/
def follow (first : Option (Report W N)) (after : Outcome → Shell W N → Option (Report W N)) :
    Option (Report W N) := do
  let report ← first
  let last ← after report.outcome report.shell
  some { last with events := report.events ++ last.events }

/-- Run a command in another frame, and come back. -/
def inside (frame : Frame → Frame) (run : Shell W N → Option (Report W N)) (sh : Shell W N) :
    Option (Report W N) := do
  let report ← run (sh.enter (frame sh.frame))
  some { report with shell := report.shell.enter sh.frame }

/-- The frame of a condition. -/
def Frame.tested (frame : Frame) : Frame :=
  { frame with depths :=
    { frame.depths with errexitIgnored := frame.depths.errexitIgnored + 1 } }

/-- The frame of a loop. -/
def Frame.looped (frame : Frame) : Frame :=
  { frame with context := { frame.context with loopDepth := frame.context.loopDepth + 1 } }

/-- A result that is taken as given. -/
def given {α : Type} [Inhabited α] : Except Failure α → α
  | .ok a => a
  | .error _ => default

namespace Reference

section Callbacks

variable (env : Env W N)
  (leaf : ℕ → Bool → Shell W N → N → Option (Outcome × Shell W N))
  (run : Shell W N → Plan N → Option (Report W N))

/-! ### Compound commands -/

/-- A condition. -/
def test (sh : Shell W N) (plan : Plan N) : Option (Report W N) :=
  inside Frame.tested (fun sh => run sh plan) sh

/-- `&&` and `||`. -/
def andOr (wanted : Bool) (left right : Plan N) (sh : Shell W N) : Option (Report W N) :=
  follow (test run sh left) fun outcome sh =>
    match outcome with
    | .finished status => if decide (status = 0) == wanted then run sh right else halt outcome sh
    | outcome => halt outcome sh

/-- `if`: the first branch whose condition succeeds. -/
def ifBranches (otherwise : Option (Plan N)) :
    Shell W N → List (Plan N × Plan N) → Option (Report W N)
  | sh, [] =>
    match otherwise with
    | some body => run sh body
    | none => halt (.finished 0) sh
  | sh, (condition, body) :: branches =>
    follow (test run sh condition) fun outcome sh =>
      match outcome with
      | .finished status => if status = 0 then run sh body else ifBranches otherwise sh branches
      | outcome => halt outcome sh

/-- `while` and `until`: the status is that of the last body. -/
def loop (isWhile : Bool) (condition body : Plan N) :
    ℕ → ℤ → Shell W N → Option (Report W N)
  | 0, _, _ => none
  | fuel + 1, last, sh =>
    follow (test run sh condition) fun outcome sh =>
      match outcome.turn with
      | .ended outcome => halt outcome sh
      | .next => loop isWhile condition body fuel last sh
      | .through status =>
        if decide (status = 0) != isWhile then halt (.finished last) sh
        else follow (run sh body) fun outcome sh =>
          match outcome.turn with
          | .ended outcome => halt outcome sh
          | .next => loop isWhile condition body fuel 0 sh
          | .through status => loop isWhile condition body fuel status sh

/-- `for`: one iteration for each word. -/
def forLoop (name : Bytes) (body : Plan N) : List Bytes → ℤ → Shell W N → Option (Report W N)
  | [], last, sh => halt (.finished last) sh
  | word :: words, _, sh =>
    follow (run (assignLoopVariable sh name word).2 body) fun outcome sh =>
      match outcome.turn with
      | .ended outcome => halt outcome sh
      | .next => forLoop name body words 0 sh
      | .through status => forLoop name body words status sh

/-- `for` with its words. -/
def forClause (name : N) (words : Option (List N)) (body : Plan N) (sh : Shell W N) :
    Option (Report W N) :=
  let (name, sh) := (env.prepareWord name .redirection).on sh
  let (words, sh) := match words with
    | some words => forWords env sh words []
    | none => (.ok (sh.state.arguments.take sh.state.info.argumentCount), sh)
  inside Frame.looped (forLoop run ((given name).headD []) body (given words) 0) sh

/-- The items of a `case` from one on; `;&` runs the next body unasked. -/
def caseItems (word : Bytes) :
    Bool → List (List N × Plan N × Bool) → ℤ → Shell W N → Option (Report W N)
  | _, [], last, sh => halt (.finished last) sh
  | fallthrough, (patterns, body, falls) :: items, last, sh =>
    let (matched, sh) :=
      if fallthrough then (.ok true, sh) else casePatterns env word sh patterns
    if given matched then
      follow (if body.count ≠ 0 then run sh body else halt (.finished last) sh) fun outcome sh =>
        match outcome with
        | .finished status =>
          if falls then caseItems word true items status sh else halt outcome sh
        | outcome => halt outcome sh
    else caseItems word false items last sh

/-- `case`. -/
def caseClause (word : N) (items : List (List N × Plan N × Bool)) (sh : Shell W N) :
    Option (Report W N) :=
  let (fields, sh) := (env.prepareWord word .redirection).on sh
  caseItems env run ((given fields).headD []) false items 0 sh

/-- A compound command within its redirections. -/
def redirected (tree : N) (body : Shell W N → Option (Report W N)) (sh : Shell W N) :
    Option (Report W N) :=
  if env.hasRedirects tree then
    follow (body ((env.redirects tree {}).on sh).2) fun outcome sh =>
      halt outcome (Query.on (env.restore tree false) sh).2
  else body sh

/-! ### Processes -/

/-- Starting a command in the background, with as many processes as it has stages. -/
def background (plan : Plan N) (sh : Shell W N) : Shell W N :=
  let stages := match plan with
    | .pipeline _ _ rest => rest.length + 1
    | _ => 1
  let (pid, sh) := Query.on (env.fork stages true) sh
  let started := sh.withState (sh.state.setBackground (given pid)).2
  if sh.context.jobs then started else started.setStatus 0

/-- A child process: its exit status and the world it leaves. -/
def child (fuel : ℕ) (jobs : Bool) (index : ℕ) (sh : Shell W N) (plan : Plan N) :
    Option (ℤ × W) :=
  let (_, sh) := childShell env jobs index sh
  match plan with
  | .simple tree => (leaf fuel true sh tree).map fun r => (r.1.status % 256, r.2.world)
  | plan => (run sh plan).map fun r => (r.outcome.status % 256, r.shell.world)

/-- The children of one fork, in the order of their stages. -/
def children (fuel : ℕ) (jobs : Bool) (sh : Shell W N) :
    ℕ → List (Plan N) → Option (List ℤ × List W)
  | _, [] => some ([], [])
  | index, plan :: plans => do
    let (status, world) ← child env leaf run fuel jobs index sh plan
    let (statuses, worlds) ← children fuel jobs sh (index + 1) plans
    some (status :: statuses, world :: worlds)

/-- Fork a process for each stage and wait for all of them.  Stages of a negated
pipeline are run as part of a condition. -/
def forkStages (fuel : ℕ) (negated : Bool) (stages : List (Plan N)) (sh : Shell W N) :
    Option (Report W N) := do
  let pipefail := sh.state.option Opt.pipefail
  let jobs := sh.context.jobs
  let (_, sh) := Query.on (env.fork stages.length false) sh
  let forked := if negated then sh.enter sh.frame.tested else sh
  let sh := if jobs then (Query.on (env.foreground stages.length) sh).2
    else (Query.on (env.stageWait stages.length) sh).2
  let (statuses, worlds) ← children env leaf run fuel jobs forked 0 stages
  halt (.finished (pipelineStatus pipefail negated statuses))
    { sh with world := env.join sh.world worlds }

/-- A pipeline of one command runs in the shell itself. -/
def pipeline (fuel : ℕ) (negated : Bool) (first : Plan N) (rest : List (Plan N))
    (sh : Shell W N) : Option (Report W N) :=
  let frame := if negated then Frame.tested else id
  match rest with
  | [] =>
    follow (inside frame (fun sh => run sh first) sh) fun outcome sh =>
      halt (if negated then outcome.negate else outcome) sh
  | _ => inside frame (forkStages env leaf run fuel negated (first :: rest)) sh

/-- A list: each item in turn, as long as nothing ends it. -/
def listItems : List (Bool × Plan N) → ℤ → Shell W N → Option (Report W N)
  | [], last, sh => halt (.finished last) sh
  | (asynchronous, plan) :: items, _, sh =>
    follow (if asynchronous then halt (.finished 0) (background env plan sh) else run sh plan)
      fun outcome sh =>
        match outcome with
        | .finished status => listItems items status (Query.on env.reap sh).2
        | outcome => halt outcome sh

/-! ### Function calls -/

/-- The shell a function's body runs in: no enclosing loop is counted. -/
def called (args : List Bytes) (sh : Shell W N) : Shell W N :=
  (sh.withState ((sh.state.pushParameters args).1.setFunctionDepth
    (sh.state.info.functionDepth + 1))).setLoopDepth 0

/-- The shell after the call, with the caller's parameters and depths. -/
def leftCall (sh after : Shell W N) (status : ℤ) : Shell W N :=
  ((after.withState ((after.state.setFunctionDepth sh.state.info.functionDepth).popParameters
    (sh.state.arguments, sh.state.info.argumentCount))).setLoopDepth sh.context.loopDepth).setStatus
      status

/-- A function call. -/
def call (function : Function N) (args : List Bytes) (sh : Shell W N) :
    Option (Outcome × Shell W N) :=
  (run (called args sh) (.brace function.tree function.body)).map fun r =>
    (r.outcome.returned, leftCall sh r.shell r.outcome.status)

/-! ### Commands -/

/-- The command itself. -/
def command (fuel : ℕ) (sh : Shell W N) : Plan N → Option (Report W N)
  | .simple tree => (leaf fuel false sh tree).map fun r =>
      { outcome := r.1.clamp sh.context.loopDepth, shell := r.2 }
  | .list items => listItems env run items 0 sh
  | .and left right => andOr run true left right sh
  | .or left right => andOr run false left right sh
  | .subshell tree body => forkStages env leaf run fuel false [.brace tree body] sh
  | .function tree name body => halt (.finished 0) (defineFunction env sh tree name body).2
  | .brace tree body => redirected env tree (fun sh => run sh body) sh
  | .ifClause tree branches otherwise =>
    redirected env tree (fun sh => ifBranches run otherwise sh branches) sh
  | .forClause tree name words body => redirected env tree (forClause env run name words body) sh
  | .loop tree isWhile condition body =>
    redirected env tree (inside Frame.looped (loop run isWhile condition body fuel 0)) sh
  | .caseClause tree word items => redirected env tree (caseClause env run word items) sh
  | .pipeline negated first rest => pipeline env leaf run fuel negated first rest sh

/-- The commands `errexit` looks at. -/
def observed : Plan N → Bool
  | .simple _ | .subshell _ _ => true
  | .pipeline negated _ rest => !negated && !rest.isEmpty
  | _ => false

/-- The event an observed command gives rise to. -/
def events (plan : Plan N) (tested : Bool) (outcome : Outcome) : List Event :=
  if observed plan then [⟨outcome, tested⟩] else []

/-- The end of every command: `errexit` is applied to the ones it looks at, unless
they are part of a condition, and `$?` is set. -/
def finish (errexit : Bool) (plan : Plan N) (outcome : Outcome) (sh : Shell W N) :
    Option (Report W N) :=
  let tested := decide (sh.frame.depths.errexitIgnored ≠ 0)
  some {
    outcome := if errexit && observed plan && !tested then outcome.demanded else outcome
    events := events plan tested outcome
    shell := sh.setStatus outcome.status }

/-- One command and its end. -/
def step (errexit : Bool) (fuel : ℕ) (sh : Shell W N) (plan : Plan N) : Option (Report W N) :=
  follow (command env leaf run fuel sh plan) (finish errexit plan)

end Callbacks

end Reference

/-- The reference interpreter. -/
def reference (env : Env W N) (errexit : Bool)
    (leaf : ℕ → Bool → Shell W N → N → Option (Outcome × Shell W N)) :
    ℕ → Shell W N → Plan N → Option (Report W N)
  | 0, _, _ => none
  | fuel + 1, sh, plan =>
    Reference.step env leaf (reference env errexit leaf fuel) errexit fuel sh plan

end CShell.Execute
