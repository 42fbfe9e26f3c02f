import CShell.Execute.Model

/-!
# Simple commands

From a simple command's words to its effect: category lookup, prefix
assignments, and the builtins that steer the executor itself (`break`,
`continue`, `return`, `exit`, `eval`, `.`, `exec`, `command`), function calls
and trap actions.  What these run in turn is a plan again, so every definition
here takes the executor `exec` it calls back into; loops without a bound of their
own take fuel.

## Main definitions

* `flowControl`, `flowFunction` — the two halves of `flow_handler`.
* `evaluateInput`, `evaluateTrapAction`, `executePendingTraps` — reading commands
  from a string, a file or a trap.
* `executeResolved`, `runtimeSimple` — the command itself.

## References

`src/execute.c`.
-/

namespace CShell.Execute

variable {W N F : Type}

/-! ### Names and categories -/

/-- `control_name`. -/
def controlName (name : Bytes) : Bool :=
  [ascii "break", ascii "continue", ascii "return"].contains name

/-- `special_name`. -/
def specialName (name : Bytes) : Bool :=
  ([":", ".", "break", "continue", "eval", "exec", "exit", "export", "readonly", "return",
    "set", "shift", "times", "trap", "unset"].map ascii).contains name

/-- `command_category`. -/
def commandCategory (env : Env W N) (sh : Shell W N) (name : Bytes) (command : Command) :
    Category × Shell W N :=
  let (category, sh) := Query.on (env.pathBuiltinCategory name false command) sh
  if [ascii "exit", ascii "trap"].contains name || controlName name then (.specialBuiltin, sh)
  else if category != .specialBuiltin && (sh.state.function name).isSome then (.function, sh)
  else (category, sh)

/-- The category `command_validate` settles on. -/
def validatedCategory (env : Env W N) (sh : Shell W N) (command : Command) :
    Category × Shell W N :=
  match command.argv with
  | [] => (.empty, sh)
  | name :: _ => commandCategory env sh name command

/-! ### Operands -/

/-- The value of a digit string, most significant digit first. -/
def decimal (digits : Bytes) : ℕ :=
  digits.foldl (fun value byte => value * 10 + (byte.toNat - '0'.toNat)) 0

/-- The operand check of `flow_handler` and `builtin_exit`: a sign, then digits
only, with a value `strtol` can represent. -/
def numericOperand (text : Bytes) : Option ℤ :=
  let (negative, digits) := match text with
    | byte :: rest =>
      if byte == byteOf '-' then (true, rest)
      else if byte == byteOf '+' then (false, rest) else (false, text)
    | [] => (false, [])
  if digits.isEmpty || !digits.all digit then none
  else
    let value : ℤ := if negative then -(decimal digits : ℤ) else decimal digits
    if -2 ^ 63 ≤ value ∧ value < 2 ^ 63 then some value else none

/-- Skip a leading `--`. -/
def skipDashes : List Bytes → List Bytes
  | arg :: args => if arg == ascii "--" then args else arg :: args
  | [] => []

/-! ### Assignments -/

/-- Why `assignments_apply` failed; a readonly variable ends a non-interactive
shell. -/
structure Unassigned where
  failure : Failure
  readonly : Bool := false

/-- The first pass of `assignments_apply`, before anything is changed. -/
def assignmentsCheck (s : State F) : List (Bytes × Bytes) → Option Unassigned
  | [] => none
  | (name, _) :: rest =>
    match s.getVariable name with
    | (.ok, view) =>
      if hasBit view.attributes Attr.readonly then
        some ⟨⟨"cannot assign to readonly variable", 1⟩, true⟩
      else assignmentsCheck s rest
    | _ => some ⟨⟨"invalid assignment name or value", 2⟩, false⟩

/-- The last pass of `assignments_apply`. -/
def assignmentsSet (exported : Bool) (s : State F) : List (Bytes × Bytes) → StateResult × State F
  | [] => (.ok, s)
  | (name, value) :: rest =>
    match s.setVariable name value with
    | (.ok, s) =>
      if exported then
        match s.updateAttributes name Attr.exported 0 with
        | (.ok, s) => assignmentsSet exported s rest
        | (status, s) => (status, s)
      else assignmentsSet exported s rest
    | (status, s) => (status, s)

/-- `assignments_apply`.  Success leaves what to restore once the command is done:
nothing for the categories whose assignments persist. -/
def assignmentsApply (s : State F) (command : Command) (category : Category) :
    Except Unassigned (List VariableSave) × State F :=
  let temporary := [Category.external, .regularBuiltin, .function].contains category
  if command.assignments.isEmpty then (.ok [], s)
  else match assignmentsCheck s command.assignments with
    | some reason => (.error reason, s)
    | none =>
      match s.saveVariables (command.assignments.map Prod.fst) with
      | (.ok, saves) =>
        let exported := temporary || s.option Opt.allexport
        match assignmentsSet exported s command.assignments with
        | (.ok, s) => (.ok (if temporary then saves else []), s)
        | (_, s) => (.error ⟨⟨"cannot apply assignment variables", 1⟩, false⟩, s.restoreVariables saves)
      | _ => (.error ⟨⟨"cannot save assignment variables", 1⟩, false⟩, s)

/-! ### Flags of a result -/

/-- `expansion_failed`. -/
def expansionFailed (sh : Shell W N) (result : Execution) : Execution :=
  { result with exitRequested := !sh.interactive }

/-- `context_stopped`. -/
def stopped (sh : Shell W N) (result : Execution) : Bool :=
  result.jobSuspended || result.control != .none || result.exitRequested ||
    (result.specialBuiltinError && !sh.interactive)

/-- The condition on which every loop of the executor gives up. -/
def halted (sh : Shell W N) (result : Execution) : Bool := stopped sh result || sh.noexec

namespace Answer

/-- `if (rc == -1) result->status = error->status`. -/
def failStatus (a : Answer W N) : Answer W N :=
  match a.failure with
  | some failure => { a with result := { a.result with status := failure.status } }
  | none => a

/-- An answer that also records its status in the state. -/
def settled (a : Answer W N) : Answer W N := { a with shell := a.shell.setStatus a.result.status }

end Answer

/-! ### Loop control, `return` and `exit` -/

/-- `flow_handler` on `break`, `continue` and `return`. -/
def flowControl (sh : Shell W N) (name : Bytes) (args : List Bytes) (result : Execution) :
    Execution :=
  let info := sh.state.info
  let returning := name == ascii "return"
  let args := skipDashes args
  let transfer (value : ℤ) : Execution :=
    if returning then
      if info.functionDepth = 0 ∧ info.sourceDepth = 0 then { result with status := 2 }
      else { result with control := .returnCall, levels := 0, status := value % 256 }
    else if sh.context.loopDepth = 0 then { result with status := 2 }
    else
      { result with
        control := if name == ascii "break" then .breakLoop else .continueLoop
        levels := if value > sh.context.loopDepth then sh.context.loopDepth else value.toNat
        status := 0 }
  match args with
  | [] => transfer (if returning then info.lastStatus else 1)
  | [operand] =>
    match numericOperand operand with
    | some value => if !returning && value ≤ 0 then { result with status := 2 } else transfer value
    | none => { result with status := 2 }
  | _ => { result with status := 2 }

/-- `builtin_exit`. -/
def builtinExit (sh : Shell W N) (args : List Bytes) (result : Execution) : Execution :=
  let refused : Execution := { result with status := 2, exitRequested := !sh.interactive }
  match skipDashes args with
  | [] =>
    { result with
      status := if sh.context.inTrap then sh.context.trapStatus else sh.state.info.lastStatus
      exitRequested := true }
  | [operand] =>
    match numericOperand operand with
    | some value => { result with status := value % 256, exitRequested := true }
    | none => refused
  | _ => refused

section Callbacks

variable (env : Env W N) (exec : Shell W N → Plan N → Option (Answer W N))

/-! ### Trees, inputs and traps -/

/-- `csh_execute_context_ast`. -/
def executeContextAst (sh : Shell W N) (plan : Plan N) : Option (Answer W N) := do
  let (reaped, sh) := Query.on env.reap sh
  let answer ← (match reaped with
    | some failure => some { result := { category := .pipeline }, failure := some failure, shell := sh }
    | none =>
      let (prepared, sh) := Query.on (env.prepare plan) sh
      match prepared with
      | some failure =>
        some { result := { category := .pipeline }, failure := some failure, shell := sh }
      | none => exec sh plan)
  some answer.failStatus.settled

/-- The reading loop of `evaluate_input`. -/
def evaluateLoop (handle : ℕ) (sourced : Bool) : ℕ → Shell W N → Execution → Option (Answer W N)
  | 0, _, _ => none
  | fuel + 1, sh, result => do
    let (parsed, sh) := Query.on (env.parserNext handle) sh
    match parsed with
    | .eof => some { result, shell := sh }
    | .failed failure inputFailed =>
      -- a dot file that cannot be read is an error of the utility, not of the shell
      let exitRequested := if inputFailed then !sourced else !sh.interactive
      some { result := { result with exitRequested }, failure := some failure, shell := sh }
    | .tree plan =>
      let answer ← executeContextAst env exec sh plan
      if stopped answer.shell answer.result then some answer
      else evaluateLoop handle sourced fuel answer.shell answer.result

/-- `evaluate_input`. -/
def evaluateInput (fuel handle : ℕ) (sourced : Bool) (sh : Shell W N) (result : Execution) :
    Option (Answer W N) := do
  let (exhausted, sh) := Query.on env.stackExhausted sh
  if exhausted then
    some { result, failure := some ⟨"evaluation stack exhausted", 1⟩, shell := sh }
  else
    let sh := sh.withState sh.state.withAliases
    let answer ← evaluateLoop env exec handle sourced fuel sh { result with status := 0 }
    some { answer with result := { answer.result with category := result.category } }

/-- `evaluate_trap_action`. -/
def evaluateTrapAction (fuel : ℕ) (action : Bytes) (saved : ℤ) (outer : Execution)
    (sh : Shell W N) : Option (Execution × Shell W N) := do
  let before := sh.context
  let sh := { sh with context := { before with inTrap := true, trapStatus := saved } }.setStatus saved
  let (opened, sh) := Query.on (env.inputFromString action "trap") sh
  let answer ← (match opened with
    | .error _ => some { shell := sh }
    | .ok handle => evaluateInput env exec fuel handle false sh {})
  let execution := answer.result
  let sh := answer.shell
  let sh := { sh with context :=
    { sh.context with inTrap := before.inTrap, trapStatus := before.trapStatus } }
  if execution.exitRequested then
    some ({ outer with exitRequested := true, status := execution.status }, sh)
  else if execution.control != .none then
    some ({ outer with
      control := execution.control, levels := execution.levels, status := execution.status },
      sh.setStatus execution.status)
  else some (outer, sh.setStatus saved)

/-- The dispatch loop of `csh_execute_pending_traps`; the flag tells a failed
`csh_traps_take`. -/
def pendingLoop : ℕ → List ℕ → Execution → Shell W N → Option (Bool × Execution × Shell W N)
  | 0, _, _, _ => none
  | fuel + 1, seen, result, sh => do
    let (next, sh) := Query.on env.trapsFirstPending sh
    if next = 0 || seen.contains next then some (false, result, sh)
    else
      let (taken, sh) := Query.on env.trapsTake sh
      match taken with
      | .nothing => some (false, result, sh)
      | .failed => some (true, result, sh)
      | .action number text =>
        let (result, sh) ←
          evaluateTrapAction env exec fuel text sh.state.info.lastStatus result sh
        if result.exitRequested || result.control != .none then some (false, result, sh)
        else pendingLoop fuel (number :: seen) result sh

/-- `csh_execute_pending_traps`. -/
def executePendingTraps (fuel : ℕ) (result : Execution) (sh : Shell W N) : Option (Answer W N) := do
  if !sh.context.traps || sh.context.dispatchingTraps then some { result, shell := sh }
  else
    let dispatching := { sh with context := { sh.context with dispatchingTraps := true } }
    let (failed, result, sh) ← pendingLoop env exec (fuel + 1) [] result dispatching
    let sh := { sh with context := { sh.context with dispatchingTraps := false } }
    if failed then
      some { result := { result with status := 1 }, shell := sh.setStatus 1,
             failure := some ⟨"cannot allocate trap action", 1⟩ }
    else some { result, shell := sh }

/-- `csh_execute_exit_trap`. -/
def executeExitTrap (fuel : ℕ) (sh : Shell W N) : Option (ℤ × Shell W N) := do
  let lastStatus := sh.state.info.lastStatus
  if !sh.context.traps then some (lastStatus, sh)
  else
    let (action, sh) := Query.on env.trapsExitAction sh
    match action with
    | .error _ => some (1, sh.setStatus 1)
    | .ok none => some (lastStatus, sh)
    | .ok (some action) =>
      let (result, sh) ← evaluateTrapAction env exec fuel action lastStatus {} sh
      some (if result.exitRequested then result.status else lastStatus, sh)

/-! ### Functions -/

/-- `flow_handler` on a function call. -/
def flowFunction (sh : Shell W N) (name : Bytes) (args : List Bytes) (result : Execution) :
    Option (Answer W N) := do
  match sh.state.function name with
  | none => some { result, failure := some ⟨"missing function definition", 1⟩, shell := sh }
  | some function =>
    let depth := sh.state.info.functionDepth
    let loops := sh.context.loopDepth
    let (exhausted, sh) := Query.on env.stackExhausted sh
    if exhausted then some { result, failure := some ⟨"function stack exhausted", 1⟩, shell := sh }
    else
      let body := Plan.brace function.tree function.body
      let (prepared, sh) := Query.on (env.prepare body) sh
      match prepared with
      | some failure =>
        some { result := { result with category := .function }, failure := some failure, shell := sh }
      | none =>
        let (state, parameters) := sh.state.pushParameters args
        let called := (sh.withState (state.setFunctionDepth (depth + 1))).setLoopDepth 0
        let answer ← exec called body
        let state := (answer.shell.state.setFunctionDepth depth).popParameters parameters
        let returned : Execution :=
          if answer.result.control = .returnCall then
            { answer.result with control := .none, levels := 0 } else answer.result
        some { answer with
          result := { returned with category := .function }
          shell := (answer.shell.withState state).setLoopDepth loops }

/-- `define_function`. -/
def defineFunction (sh : Shell W N) (tree name : N) (body : Plan N) : Option Failure × Shell W N :=
  let (prepared, sh) := (env.prepareWord name .redirection).on sh
  match prepared with
  | .error failure => (some failure, sh)
  | .ok [name] =>
    if specialName name then
      (some ⟨"invalid function name: special builtin names are reserved", 2⟩, sh)
    else match sh.state.setFunction name (some ⟨tree, body⟩) with
      | (.ok, state) => (none, sh.withState state)
      | (_, state) => (some ⟨"cannot store function definition", 1⟩, sh.withState state)
  | .ok _ => (some ⟨"invalid function name: special builtin names are reserved", 2⟩, sh)

/-! ### The evaluation builtins -/

/-- `eval` in `evaluation_handler`. -/
def evalBuiltin (fuel : ℕ) (sh : Shell W N) (args : List Bytes) (result : Execution) :
    Option (Answer W N) := do
  let text := List.intercalate (ascii " ") args
  let (opened, sh) := Query.on (env.inputFromString text "eval") sh
  match opened with
  | .error failure => some { result, failure := some failure, shell := sh }
  | .ok handle => evaluateInput env exec fuel handle false sh result

/-- `.` in `evaluation_handler`, once its file is open: the file's commands run one
source level deeper, with the given parameters if there are any. -/
def sourceInput (fuel handle : ℕ) (parameters : List Bytes) (sh : Shell W N) (result : Execution) :
    Option (Answer W N) := do
  let depth := sh.state.info.sourceDepth
  let pushed := !parameters.isEmpty
  let save := (sh.state.pushParameters parameters).2
  let state := if pushed then (sh.state.pushParameters parameters).1 else sh.state
  let sourced := sh.withState (state.setSourceDepth (depth + 1))
  let answer ← evaluateInput env exec fuel handle true sourced result
  let result : Execution :=
    if answer.result.control = .returnCall then { answer.result with control := .none }
    else answer.result
  let state := answer.shell.state.setSourceDepth depth
  let state := if pushed then state.popParameters save else state
  some { answer with result, shell := answer.shell.withState state }

/-- `.` in `evaluation_handler`. -/
def dotBuiltin (fuel : ℕ) (sh : Shell W N) (args : List Bytes) (result : Execution) :
    Option (Answer W N) := do
  match skipDashes args with
  | [] => some { result, failure := some ⟨"dot requires a file", 2⟩, shell := sh }
  | file :: parameters =>
    let (path, sh) := Query.on (env.lookupPath file) sh
    match path with
    | none => some { result, failure := some ⟨"cannot find readable dot file", 1⟩, shell := sh }
    | some path =>
      let (opened, sh) := Query.on (env.inputFromFile path) sh
      match opened with
      | .error failure => some { result, failure := some failure, shell := sh }
      | .ok handle => sourceInput env exec fuel handle parameters sh result

/-- The failure of `assignments_apply`, entered into a result. -/
def unassigned (sh : Shell W N) (reason : Unassigned) (result : Execution) : Answer W N :=
  { result := if reason.readonly then { result with exitRequested := !sh.interactive } else result
    failure := some reason.failure
    shell := sh }

/-- `exec` in `evaluation_handler`: it returns only if no program could be run. -/
def execBuiltin (sh : Shell W N) (command : Command) (args : List Bytes) (result : Execution) :
    Answer W N :=
  match skipDashes args with
  | [] => { result := { result with retainRedirects := true, status := 0 }, shell := sh }
  | target :: operands =>
    let dashes := operands.length + 1 ≠ args.length
    if ¬dashes ∧ target.head? = some (byteOf '-') then
      { result, failure := some ⟨"invalid exec option", 2⟩, shell := sh }
    else
      -- the prefix is exported for the new environment only
      match assignmentsApply sh.state command .external with
      | (.error reason, state) => unassigned (sh.withState state) reason result
      | (.ok saves, state) =>
        let (replaced, sh) :=
          Query.on (env.replace { command with argv := target :: operands }) (sh.withState state)
        let sh := sh.withState (sh.state.restoreVariables saves)
        match replaced with
        | .error failure => { result, failure := some failure, shell := sh }
        | .ok status =>
          { result := { result with status, exitRequested := !sh.interactive }, shell := sh }

/-- What the options of `command` and `type` ask for. -/
structure Lookup where
  report : Bool
  verbose : Bool
  defaults : Bool
  deriving DecidableEq, Repr

/-- The letters of one option argument. -/
def lookupLetters (isCommand : Bool) : Bytes → Lookup → Option Lookup
  | [], found => some found
  | letter :: rest, found =>
    if letter == byteOf 'p' && isCommand then
      lookupLetters isCommand rest { found with defaults := true }
    else if (letter == byteOf 'v' || letter == byteOf 'V') && isCommand then
      lookupLetters isCommand rest { found with report := true, verbose := letter == byteOf 'V' }
    else none

/-- The options of `command` and `type`, and the operands after them; `none` is an
invalid option. -/
def lookupOptions (isCommand : Bool) : List Bytes → Lookup → Option (Lookup × List Bytes)
  | [], found => some (found, [])
  | arg :: args, found =>
    match arg with
    | dash :: letter :: rest =>
      if dash != byteOf '-' then some (found, arg :: args)
      else if letter :: rest = ascii "-" then some (found, args)
      else match lookupLetters isCommand (letter :: rest) found with
        | some found => lookupOptions isCommand args found
        | none => none
    | _ => some (found, arg :: args)

/-- `context_job` on a prepared external command. -/
def commandJob (sh : Shell W N) (command : Command) (result : Execution) : Answer W N :=
  let result := { result with category := .external }
  match assignmentsApply sh.state command .external with
  | (.error reason, state) => unassigned (sh.withState state) reason result
  | (.ok saves, state) =>
    let (launched, sh) := Query.on (env.launchJob command) (sh.withState state)
    let sh := sh.withState (sh.state.restoreVariables saves)
    match launched with
    | .error failure => { result, failure := some failure, shell := sh }
    | .ok (status, jobSuspended) => { result := { result with status, jobSuspended }, shell := sh }

/-- Whether the job manager takes a command over. -/
def managed (sh : Shell W N) (argv : List Bytes) : Bool :=
  match argv with
  | [] => false
  | name :: args =>
    sh.context.jobs && env.isJobsBuiltin name &&
      (name != ascii "set" || args.head?.any (· != ascii "--"))

/-- The handlers `execute_resolved` is given. -/
inductive Handler
  | none
  | bootstrap
  | job
  deriving DecidableEq, Repr

/-- The category `command` runs its target in: a special builtin is demoted, so
that its errors do not end the shell. -/
def targetCategory (target : Bytes) (category : Category) : Category :=
  if target == ascii "exit" || controlName target || category = .specialBuiltin then .regularBuiltin
  else category

/-- `command` and `type` in `evaluation_handler`. -/
def commandBuiltin (resolved : Shell W N → Command → Category → Handler → Option (Answer W N))
    (sh : Shell W N) (command : Command) (name : Bytes) (args : List Bytes) (result : Execution) :
    Option (Answer W N) := do
  let isCommand := name == ascii "command"
  let initial : Lookup := ⟨!isCommand, !isCommand, command.defaultPath⟩
  match lookupOptions isCommand args initial with
  | none => some { result := { result with status := 2 }, shell := sh }
  | some (found, operands) =>
    let result := { result with status := 0 }
    if found.report then
      let (status, sh) := Query.on (env.lookupReport name operands found.verbose found.defaults) sh
      some { result := { result with status }, shell := sh }
    else match operands with
      | [] => some { result, shell := sh }
      | target :: rest =>
        let command : Command :=
          { argv := target :: rest, defaultPath := found.defaults,
            substitutionStatus := command.substitutionStatus }
        let (category, sh) := Query.on (env.pathBuiltinCategory target found.defaults {}) sh
        let category := targetCategory target category
        let (exhausted, sh) := Query.on env.stackExhausted sh
        if exhausted then
          some { result, failure := some ⟨"evaluation stack exhausted", 1⟩, shell := sh }
        else
          let answer ← (
            if managed env sh command.argv then
              let ((status, jobSuspended), sh) := (env.jobsBuiltin command).on sh
              some { result := { result with status, jobSuspended }, shell := sh }
            else if sh.context.jobs && category = .external then
              some (commandJob env sh command result)
            else resolved sh command category (if category = .external then .none else .bootstrap))
          some { answer with result := { answer.result with category := .regularBuiltin } }

/-- `evaluation_handler`. -/
def evaluationHandler (resolved : Shell W N → Command → Category → Handler → Option (Answer W N))
    (fuel : ℕ) (sh : Shell W N) (command : Command) (name : Bytes) (args : List Bytes)
    (result : Execution) : Option (Answer W N) := do
  if name == ascii "alias" || name == ascii "unalias" then
    let (status, sh) := (env.aliasBuiltin command).on (sh.withState sh.state.withAliases)
    some { result := { result with status }, shell := sh }
  else if name == ascii "eval" then evalBuiltin env exec fuel sh args result
  else if name == ascii "." then dotBuiltin env exec fuel sh args result
  else if name == ascii "exec" then some (execBuiltin env sh command args result)
  else if name == ascii "command" || name == ascii "type" then
    commandBuiltin env resolved sh command name args result
  else
    let (hashed, sh) := (env.hashBuiltin command).on sh
    match hashed with
    | .ok status => some { result := { result with status }, shell := sh }
    | .error failure => some { result, failure := some failure, shell := sh }

/-- The builtins `bootstrap_handler` passes to `evaluation_handler`. -/
def evaluationName (name : Bytes) : Bool :=
  ([".", "eval", "exec", "command", "type", "hash", "alias", "unalias"].map ascii).contains name

/-- The builtins of `utility.c`. -/
def utilityName (name : Bytes) : Bool :=
  (["read", "getopts", "umask", "ulimit", "times"].map ascii).contains name

/-- `bootstrap_handler`. -/
def bootstrapHandler (resolved : Shell W N → Command → Category → Handler → Option (Answer W N))
    (fuel : ℕ) (sh : Shell W N) (command : Command) (name : Bytes) (args : List Bytes)
    (result : Execution) : Option (Answer W N) := do
  if controlName name then some { result := flowControl sh name args result, shell := sh }
  else if result.category = .function then flowFunction env exec sh name args result
  else if evaluationName name then
    let answer ← evaluationHandler env exec resolved fuel sh command name args result
    match answer.failure with
    | none => some answer
    | some failure =>
      let special := answer.result.specialBuiltinError || answer.result.category = .specialBuiltin
      some { answer with
        failure := none
        result := { answer.result with status := failure.status, specialBuiltinError := special } }
  else if name == ascii "exit" then some { result := builtinExit sh args result, shell := sh }
  else
    let (status, sh) :=
      if utilityName name then (env.utilityRun command).on sh
      else if name == ascii "trap" then Query.on (env.trapsBuiltin sh.context.traps command) sh
      else (env.builtinRun command).on sh
    some { result := { result with status }, shell := sh }

/-! ### Dispatch -/

/-- The category and handler check of `execute_resolved`. -/
def resolvable (command : Command) (category : Category) (handler : Handler) : Bool :=
  category != .pipeline && category != .unresolved &&
    ((category == .empty) == command.argv.isEmpty) &&
    (if category == .empty || category == .external then handler == .none else handler != .none)

/-- The end of `execute_resolved`: temporary assignments are undone, and a special
builtin that failed on its own account is marked. -/
def resolvedEnd (command : Command) (saves : List VariableSave) (answer : Answer W N) :
    Answer W N :=
  let answer := answer.failStatus
  let sh := answer.shell.withState (answer.shell.state.restoreVariables saves)
  let result := answer.result
  let lenient := (["eval", ".", "trap"].map ascii).contains (command.argv.headD [])
  let special := result.category = .specialBuiltin ∧ result.status ≠ 0 ∧ !result.exitRequested ∧
    result.control = .none ∧ (answer.failure.isSome ∨ !lenient)
  let result := if special then { result with specialBuiltinError := true } else result
  Answer.settled { answer with result, shell := sh }

/-- `execute_resolved`.  The fuel bounds the nesting of `command` and the loops of
what is run. -/
def executeResolved : ℕ → Shell W N → Command → Category → Handler → Option (Answer W N)
  | 0, _, _, _, _ => none
  | fuel + 1, sh, command, category, handler => do
    if !resolvable command category handler then
      let failure : Failure := ⟨"invalid resolved command category or handler", 2⟩
      some (resolvedEnd command [] { failure := some failure, shell := sh })
    else
      let result : Execution := { category }
      match assignmentsApply sh.state command category with
      | (.error reason, state) =>
        some (resolvedEnd command [] (unassigned (sh.withState state) reason result))
      | (.ok saves, state) =>
        let sh := sh.withState state
        if category = .external then
          let (launched, sh) := Query.on (env.launch command) sh
          match launched with
          | .error failure =>
            some (resolvedEnd command saves { result, failure := some failure, shell := sh })
          | .ok status =>
            some (resolvedEnd command saves { result := { result with status }, shell := sh })
        else
          let answer ← (match handler, command.argv with
            | .job, _ =>
              let ((status, jobSuspended), sh) := (env.jobsBuiltin command).on sh
              some { result := { result with status, jobSuspended }, shell := sh }
            | .bootstrap, name :: args =>
              bootstrapHandler env exec (executeResolved fuel) fuel sh command name args result
            | _, _ =>
              some { result := { result with status := command.substitutionStatus }, shell := sh })
          some (resolvedEnd command saves answer)

/-- The end of `runtime_simple`. -/
def simpleEnd (tree : N) (redirected : Bool) (answer : Answer W N) : Answer W N :=
  let retain := answer.result.retainRedirects
  let answer := { answer with result := { answer.result with retainRedirects := false } }
  let answer :=
    if redirected then
      let (restored, sh) := Query.on (env.restore tree retain) answer.shell
      { answer with failure := restored <|> answer.failure, shell := sh }
    else answer
  let answer := answer.failStatus
  if answer.result.redirectionFailed && answer.result.category = .specialBuiltin then
    { answer with result := { answer.result with specialBuiltinError := true } }
  else answer

/-- The redirections of a simple command; those of a command without words are
expanded in a copy of the state. -/
def simpleRedirects (sh : Shell W N) (tree : N) (command : Command) :
    Redirected × Command × Shell W N :=
  if !env.hasRedirects tree then (.applied, command, sh)
  else
    let ((redirected, command'), sh') := (env.redirects tree command).on sh
    (redirected, command', if command.argv.isEmpty then sh'.withState sh.state else sh')

/-- The handler `runtime_simple` chooses, and the category a command of the job
manager is run in. -/
def selectHandler (job : Bool) (command : Command) (category : Category) : Category × Handler :=
  if !job then (category, if category = .empty || category = .external then .none else .bootstrap)
  else if command.argv.head? = some (ascii "set") then (.specialBuiltin, .job)
  else (.regularBuiltin, .job)

/-- The last part of `runtime_simple`: the command's category with its assignments
known, and its dispatch. -/
def simpleDispatch (fuel : ℕ) (direct : Bool) (sh : Shell W N) (command : Command) :
    Option (Answer W N) := do
  let (category, sh) := validatedCategory env sh command
  let (_, sh) := (env.trace command).on sh
  let (category, handler) :=
    selectHandler (category != .function && managed env sh command.argv) command category
  if direct && category = .external then
    let (launched, sh) := Query.on (env.launchChild command) sh
    match launched with
    | .error failure => some { result := { category }, failure := some failure, shell := sh }
    | .ok status => some { result := { category, status }, replaced := some status, shell := sh }
  else if !direct && sh.context.jobs && category = .external then
    some (commandJob env sh command { category })
  else executeResolved env exec fuel sh command category handler

/-- `runtime_simple`. -/
def runtimeSimple (fuel : ℕ) (direct : Bool) (sh : Shell W N) (tree : N) :
    Option (Answer W N) := do
  let (expanded, sh) := (env.arguments tree).on sh
  match expanded with
  | .error failure =>
    some (simpleEnd env tree false
      { result := expansionFailed sh {}, failure := some failure, shell := sh })
  | .ok command =>
    let (valid, sh) := Query.on (env.validate command) sh
    match valid with
    | .error failure => some (simpleEnd env tree false { failure := some failure, shell := sh })
    | .ok () =>
      let (category, sh) := validatedCategory env sh command
      let (redirected, command, sh) := simpleRedirects env sh tree command
      match redirected with
      | .unexpanded failure =>
        some (simpleEnd env tree false
          { result := expansionFailed sh { category }, failure := some failure, shell := sh })
      | .refused failure =>
        some (simpleEnd env tree false
          { result := { category, redirectionFailed := true }, failure := some failure, shell := sh })
      | .applied =>
        let (assigned, sh) := (env.assignments tree command).on sh
        match assigned with
        | .error failure =>
          some (simpleEnd env tree (env.hasRedirects tree)
            { result := expansionFailed sh { category }, failure := some failure, shell := sh })
        | .ok command =>
          let answer ← simpleDispatch env exec fuel direct sh command
          if answer.replaced.isSome then some answer
          else some (simpleEnd env tree (env.hasRedirects tree) answer)

end Callbacks

end CShell.Execute
