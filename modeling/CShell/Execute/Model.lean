import CShell.State
import Mathlib.Tactic

/-!
# Plans, results and the execution context

The data of `execute.c`.  An `execution_plan` is a tree whose nodes keep a
pointer to the syntax they were prepared from; what execution reads there
(words, redirections) is handed to expansion and to the system, so it stays an
abstract type `N` of syntax parts.  Everything outside the executor — expansion,
descriptors, processes, the parser, the trap table — acts on a world `W` and on
the state through *primitives*.  A primitive sees the whole state and may change
it, but for the three nesting counters that `execute.c` alone writes; that is the
law each one carries.  Calls that are never given the state to write are *queries*.

Allocation never fails, and neither the diagnostics written nor `errno` are kept
of an error, only its text and status.

## Main definitions

* `Plan N` — `struct execution_plan`.
* `Execution` — `struct csh_execution`.
* `Prim`, `Query` — an operation of the world, with and without access to the state.
* `Env` — the primitives the executor calls.
* `Shell`, `Shell.frame` — `struct csh_execution_context` with the state, and the
  counters and flags a command has to give back as it found them.

## References

`src/execute.c`, `include/cshell/execute.h`.
-/

namespace CShell

/-- The counters of `struct csh_state_info` that only `execute.c` writes. -/
structure Depths where
  source : ℕ := 0
  function : ℕ := 0
  errexitIgnored : ℕ := 0
  deriving DecidableEq, Repr, Inhabited

namespace State

variable {F : Type}

/-- The nesting counters of a state. -/
def depths (s : State F) : Depths :=
  ⟨s.info.sourceDepth, s.info.functionDepth, s.info.errexitIgnored⟩

/-- A state with its nesting counters replaced. -/
def withDepths (s : State F) (d : Depths) : State F :=
  { s with info := { s.info with sourceDepth := d.source, functionDepth := d.function,
                                 errexitIgnored := d.errexitIgnored } }

/-- Whether an option of `csh_state_info` is on. -/
def option (s : State F) (mask : UInt32) : Bool := hasBit s.info.options mask

end State

namespace Execute

/-! ### Results -/

/-- `enum csh_control_transfer`. -/
inductive Control
  | none
  | breakLoop
  | continueLoop
  | returnCall
  deriving DecidableEq, Repr, Inhabited

/-- `enum csh_execution_category`. -/
inductive Category
  | empty
  | external
  | regularBuiltin
  | specialBuiltin
  | function
  | pipeline
  | unresolved
  deriving DecidableEq, Repr, Inhabited

/-- `struct csh_execution`. -/
structure Execution where
  control : Control := .none
  levels : ℕ := 0
  status : ℤ := 0
  retainRedirects : Bool := false
  redirectionFailed : Bool := false
  specialBuiltinError : Bool := false
  errexitIgnored : Bool := false
  jobSuspended : Bool := false
  exitRequested : Bool := false
  category : Category := .empty
  deriving DecidableEq, Repr, Inhabited

/-- `struct csh_error` of a call that returned `-1`. -/
structure Failure where
  message : String
  status : ℤ
  deriving DecidableEq, Repr, Inhabited

/-! ### Plans -/

/-- `struct execution_plan`.  A `list` child carries its `asynchronous` mark; an
`ifClause` lists its condition/body pairs; an item of a `caseClause` has its
patterns, its body and whether it ends in `;&`. -/
inductive Plan (N : Type)
  | simple (tree : N)
  | pipeline (negated : Bool) (first : Plan N) (rest : List (Plan N))
  | and (left right : Plan N)
  | or (left right : Plan N)
  | list (items : List (Bool × Plan N))
  | subshell (tree : N) (body : Plan N)
  | brace (tree : N) (body : Plan N)
  | ifClause (tree : N) (branches : List (Plan N × Plan N)) (otherwise : Option (Plan N))
  | forClause (tree name : N) (words : Option (List N)) (body : Plan N)
  | loop (tree : N) (isWhile : Bool) (condition body : Plan N)
  | caseClause (tree word : N) (items : List (List N × Plan N × Bool))
  | function (tree name : N) (body : Plan N)

namespace Plan

variable {N : Type}

/-- `plan->count`, the number of children `plan_node` gives a node. -/
def count : Plan N → ℕ
  | simple _ => 0
  | pipeline _ _ rest => rest.length + 1
  | and _ _ | or _ _ => 2
  | list items => items.length
  | subshell _ _ | brace _ _ => 1
  | ifClause _ branches otherwise => branches.length * 2 + otherwise.elim 0 fun _ => 1
  | forClause _ _ _ _ => 1
  | loop _ _ _ _ => 2
  | caseClause _ _ items => items.length
  | function _ _ _ => 1

end Plan

/-- `struct shell_function`: the definition's node, for its redirections, and the
body. -/
structure Function (N : Type) where
  tree : N
  body : Plan N

/-- `struct csh_command`, its argument vector and assignments expanded. -/
structure Command where
  argv : List Bytes := []
  defaultPath : Bool := false
  assignments : List (Bytes × Bytes) := []
  substitutionStatus : ℤ := 0
  deriving DecidableEq, Repr, Inhabited

/-- `enum csh_expand_context`, as far as the executor asks for it. -/
inductive WordContext
  | argument
  | pattern
  | redirection
  deriving DecidableEq, Repr, Inhabited

/-! ### The world -/

variable {W N F α : Type}

/-- An operation of the world on the state. -/
structure Prim (W F α : Type) where
  run : W → State F → α × W × State F
  depths_run : ∀ w s, (run w s).2.2.depths = s.depths

/-- A call that may look at the state but has no way to change it. -/
abbrev Query (W F α : Type) := W → State F → α × W

/-- What `runtime_redirects` finds: the redirections are in place, an operand did
not expand, or a descriptor could not be redirected. -/
inductive Redirected
  | applied
  | unexpanded (failure : Failure)
  | refused (failure : Failure)

/-- What `csh_parser_next` finds for `evaluate_input`. -/
inductive Parsed (N : Type)
  | tree (plan : Plan N)
  | eof
  | failed (failure : Failure) (inputFailed : Bool)

/-- What `csh_traps_take` finds. -/
inductive Taken
  | nothing
  | failed
  | action (number : ℕ) (text : Bytes)

/-- How a process the executor waits for ended. -/
inductive Ended
  | exited
  | signalled (number : ℕ)
  deriving DecidableEq, Repr

/-- What `csh_jobs_foreground` finds: every process of the job is gone, or the job
was left with a status of its own. -/
inductive Foreground
  | failed (failure : Failure)
  | completed (process : ℕ → Ended)
  | left (status : ℤ) (suspended : Bool)

/-- The calls of `execute.c` that leave it.  A forked child starts in the world
`child` gives it and, when the parent waits, leaves its world to `join`. -/
structure Env (W N : Type) where
  stackExhausted : Query W (Function N) Bool
  prepareWord : N → WordContext → Prim W (Function N) (Except Failure (List Bytes))
  fnmatch : Bytes → Bytes → Bool
  arguments : N → Prim W (Function N) (Except Failure Command)
  validate : Command → Query W (Function N) (Except Failure Unit)
  assignments : N → Command → Prim W (Function N) (Except Failure Command)
  hasRedirects : N → Bool
  redirects : N → Command → Prim W (Function N) (Redirected × Command)
  restore : N → Bool → Query W (Function N) (Option Failure)
  trace : Command → Prim W (Function N) Unit
  pathBuiltinCategory : Bytes → Bool → Command → Query W (Function N) Category
  isJobsBuiltin : Bytes → Bool
  jobsBuiltin : Command → Prim W (Function N) (ℤ × Bool)
  launch : Command → Query W (Function N) (Except Failure ℤ)
  launchJob : Command → Query W (Function N) (Except Failure (ℤ × Bool))
  replace : Command → Query W (Function N) (Except Failure ℤ)
  launchChild : Command → Query W (Function N) (Except Failure ℤ)
  builtinRun : Command → Prim W (Function N) ℤ
  utilityRun : Command → Prim W (Function N) ℤ
  trapsBuiltin : Bool → Command → Query W (Function N) ℤ
  aliasBuiltin : Command → Prim W (Function N) ℤ
  hashBuiltin : Command → Prim W (Function N) (Except Failure ℤ)
  lookupReport : Bytes → List Bytes → Bool → Bool → Query W (Function N) ℤ
  lookupPath : Bytes → Query W (Function N) (Option Bytes)
  inputFromString : Bytes → String → Query W (Function N) (Except Failure ℕ)
  inputFromFile : Bytes → Query W (Function N) (Except Failure ℕ)
  parserNext : ℕ → Query W (Function N) (Parsed N)
  reap : Query W (Function N) (Option Failure)
  prepare : Plan N → Query W (Function N) (Option Failure)
  trapsFirstPending : Query W (Function N) ℕ
  trapsTake : Query W (Function N) Taken
  trapsExitAction : Query W (Function N) (Except Failure (Option Bytes))
  fork : ℕ → Bool → Query W (Function N) (Except Failure ℤ)
  child : ℕ → W → W
  jobsCreate : Query W (Function N) Bool
  stageWait : ℕ → Query W (Function N) (Except Failure (ℕ → Ended))
  foreground : ℕ → Query W (Function N) Foreground
  join : W → List W → W

/-! ### The context -/

/-- `struct csh_execution_context` without its state: whether there are a job
manager and a trap table, and the fields the executor changes. -/
structure Context where
  jobs : Bool := false
  traps : Bool := false
  loopDepth : ℕ := 0
  dispatchingTraps : Bool := false
  inTrap : Bool := false
  trapStatus : ℤ := 0
  deriving DecidableEq, Repr, Inhabited

/-- A shell process: its context, its state and its view of the world. -/
structure Shell (W N : Type) where
  world : W
  state : State (Function N)
  context : Context

/-- What a command must leave as it found it. -/
structure Frame where
  context : Context
  depths : Depths
  deriving DecidableEq, Repr, Inhabited

/-- What a call of `execute_plan` leaves: the record it filled in, the error if it
returned `-1`, and the shell.  `replaced` is the exit status of the program a
`direct` child became. -/
structure Answer (W N : Type) where
  result : Execution := {}
  failure : Option Failure := none
  replaced : Option ℤ := none
  shell : Shell W N

namespace Shell

/-- The counters and flags of a shell. -/
def frame (sh : Shell W N) : Frame := ⟨sh.context, sh.state.depths⟩

/-- A shell with its counters and flags replaced. -/
def enter (sh : Shell W N) (frame : Frame) : Shell W N :=
  { sh with context := frame.context, state := sh.state.withDepths frame.depths }

/-- A shell with another state. -/
def withState (sh : Shell W N) (state : State (Function N)) : Shell W N := { sh with state }

/-- `csh_state_set_status`, its result ignored as every caller does. -/
def setStatus (sh : Shell W N) (status : ℤ) : Shell W N :=
  sh.withState (sh.state.setStatus status).2

/-- `csh_state_set_errexit_ignored`. -/
def setErrexitIgnored (sh : Shell W N) (depth : ℕ) : Shell W N :=
  sh.withState (sh.state.setErrexitIgnored depth)

/-- A shell at another loop depth. -/
def setLoopDepth (sh : Shell W N) (depth : ℕ) : Shell W N :=
  { sh with context := { sh.context with loopDepth := depth } }

/-- `info.options & CSH_OPT_INTERACTIVE`. -/
def interactive (sh : Shell W N) : Bool := sh.state.option Opt.interactive

/-- `context_noexec`. -/
def noexec (sh : Shell W N) : Bool := sh.state.option Opt.noexec

end Shell

/-- Run a primitive in a shell. -/
def Prim.on (p : Prim W (Function N) α) (sh : Shell W N) : α × Shell W N :=
  let r := p.run sh.world sh.state
  (r.1, { sh with world := r.2.1, state := r.2.2 })

/-- Run a query in a shell. -/
def Query.on (q : Query W (Function N) α) (sh : Shell W N) : α × Shell W N :=
  let r := q sh.world sh.state
  (r.1, { sh with world := r.2 })

/-! ### Frames are kept -/

@[simp] theorem frame_on (p : Prim W (Function N) α) (sh : Shell W N) :
    (p.on sh).2.frame = sh.frame := by
  simp [Prim.on, Shell.frame, p.depths_run]

@[simp] theorem context_on (p : Prim W (Function N) α) (sh : Shell W N) :
    (p.on sh).2.context = sh.context := rfl

@[simp] theorem context_query (q : Query W (Function N) α) (sh : Shell W N) :
    (Query.on q sh).2.context = sh.context := rfl

@[simp] theorem state_query (q : Query W (Function N) α) (sh : Shell W N) :
    (Query.on q sh).2.state = sh.state := rfl

@[simp] theorem frame_query (q : Query W (Function N) α) (sh : Shell W N) :
    (Query.on q sh).2.frame = sh.frame := rfl

@[simp] theorem depths_setStatus (s : State F) (status : ℤ) :
    (s.setStatus status).2.depths = s.depths := by
  unfold State.setStatus
  split <;> rfl

@[simp] theorem frame_setStatus (sh : Shell W N) (status : ℤ) :
    (sh.setStatus status).frame = sh.frame := by
  simp [Shell.setStatus, Shell.withState, Shell.frame]

@[simp] theorem context_setStatus (sh : Shell W N) (status : ℤ) :
    (sh.setStatus status).context = sh.context := rfl

end Execute

end CShell
