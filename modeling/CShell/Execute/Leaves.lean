import CShell.Execute.Simulation

/-!
# Simple commands as leaves

What the reference takes as given is here found in the code for the simple commands
that matter to the control flow: a command of words only, `break` and `continue` with
their operand, and a call of a function whose body the reference can run.

## Main results

* `runtimeSimple_transfer` — `break n` and `continue n` reach the `n`-th loop, or the
  outermost one of the current function.
* `leafAgrees_call` — a function call does what the reference makes of the body.
-/

namespace CShell.Execute

open Fuel

variable {W N : Type}

/-! ### Words only -/

/-- A simple command without assignments and redirections; `spent` is what its
expansion does to the world. -/
structure Plain (env : Env W N) (tree : N) (command : Command) (spent : W → W) : Prop where
  arguments : ∀ w s, (env.arguments tree).run w s = (.ok command, spent w, s)
  validate : ∀ w s, env.validate command w s = (.ok (), w)
  hasRedirects : env.hasRedirects tree = false
  assignments : ∀ w s, (env.assignments tree command).run w s = (.ok command, w, s)
  unassigned : command.assignments = []
  trace : ∀ w s, (env.trace command).run w s = ((), w, s)
  category : ∀ name w s, (env.pathBuiltinCategory name false command w s).2 = w

/-- The shell once the words are expanded. -/
def Shell.spend (sh : Shell W N) (spent : W → W) : Shell W N := { sh with world := spent sh.world }

section Callbacks

variable {env : Env W N} {tree : N} {command : Command} {spent : W → W}
  {exec : Shell W N → Plan N → Option (Answer W N)}

section

variable (h : Plain env tree command spent)
include h

theorem Plain.validatedCategory (sh : Shell W N) : (validatedCategory env sh command).2 = sh := by
  unfold Execute.validatedCategory
  split
  · rfl
  · rename_i name _ _
    have hquery : (Query.on (env.pathBuiltinCategory name false command) sh).2 = sh := by
      simp [Query.on, h.category]
    unfold commandCategory
    dsimp only
    split
    · exact hquery
    · split <;> exact hquery

theorem runtimeSimple_plain (fuel : ℕ) (direct : Bool) (sh : Shell W N) :
    runtimeSimple env exec fuel direct sh tree =
      (simpleDispatch env exec fuel direct (sh.spend spent) command >>= fun answer =>
        if answer.replaced.isSome then some answer else some (simpleEnd env tree false answer)) := by
  have harguments : (env.arguments tree).on sh = (.ok command, sh.spend spent) := by
    simp [Prim.on, h.arguments, Shell.spend]
  have hvalidate : Query.on (env.validate command) (sh.spend spent) = (.ok (), sh.spend spent) := by
    simp [Query.on, h.validate, Shell.spend]
  have hassignments : (env.assignments tree command).on (sh.spend spent)
      = (.ok command, sh.spend spent) := by
    simp [Prim.on, h.assignments, Shell.spend]
  unfold runtimeSimple simpleRedirects
  simp only [harguments, hvalidate, h.validatedCategory, h.hasRedirects, hassignments,
    Bool.not_false, if_true]

theorem simpleDispatch_plain (fuel : ℕ) (direct : Bool)
    (sh : Shell W N) {category : Category} (hcategory : (validatedCategory env sh command).1 = category)
    (hinternal : category ≠ .external)
    (hjobs : category ≠ .function → managed env sh command.argv = false) :
    simpleDispatch env exec fuel direct sh command
      = executeResolved env exec fuel sh command category
        (if category = .empty then .none else .bootstrap) := by
  have htrace : ((env.trace command).on sh).2 = sh := by
    simp [Prim.on, h.trace]
  have hmanaged : (category != .function && managed env sh command.argv) = false := by
    by_cases hfunction : category = .function
    · simp [hfunction]
    · simp [hjobs hfunction]
  unfold simpleDispatch
  simp only [hcategory, h.validatedCategory, htrace, hmanaged, selectHandler, Bool.not_false,
    if_true, hinternal, decide_false, Bool.and_false, Bool.or_false, Bool.false_eq_true, if_false,
    decide_eq_true_eq]

/-- Without fuel no command inside the shell comes to an end. -/
theorem runtimeSimple_zero (direct : Bool) (sh : Shell W N)
    {category : Category} (hcategory : (validatedCategory env (sh.spend spent) command).1 = category)
    (hinternal : category ≠ .external)
    (hjobs : category ≠ .function → managed env (sh.spend spent) command.argv = false) :
    runtimeSimple env exec 0 direct sh tree = none := by
  rw [runtimeSimple_plain h, simpleDispatch_plain h 0 direct _ hcategory hinternal hjobs]
  rfl

end

theorem assignmentsApply_none {s : State (Function N)} (h : command.assignments = [])
    (category : Category) : assignmentsApply s command category = (.ok [], s) := by
  simp [assignmentsApply, h]

/-- A special builtin that failed on its own account. -/
def Failing (command : Command) (result : Execution) : Prop :=
  result.category = .specialBuiltin ∧ result.status ≠ 0 ∧ result.exitRequested = false ∧
    result.control = .none ∧ (["eval", ".", "trap"].map ascii).contains (command.argv.headD []) = false

variable {a : Answer W N} {args : List Bytes} {name : Bytes} {function : Function N}

theorem resolvedEnd_plain (command : Command) (hfailure : a.failure = none)
    (hfailing : ¬Failing command a.result) : resolvedEnd command [] a = a.settled := by
  unfold resolvedEnd
  have hspecial : ¬(a.result.category = .specialBuiltin ∧ a.result.status ≠ 0 ∧
      (!a.result.exitRequested) = true ∧ a.result.control = .none ∧ (a.failure.isSome = true ∨
        (!(["eval", ".", "trap"].map ascii).contains (command.argv.headD [])) = true)) := by
    simpa [Failing, hfailure] using hfailing
  have hfail : a.failStatus = a := by
    simp [Answer.failStatus, hfailure]
  simp only [hfail, if_neg hspecial, Answer.settled]
  rfl

theorem resolvedEnd_failing {command : Command} (hfailure : a.failure = none)
    (hfailing : Failing command a.result) :
    resolvedEnd command [] a
      = Answer.settled { a with result := { a.result with specialBuiltinError := true } } := by
  unfold resolvedEnd
  have hspecial : a.result.category = .specialBuiltin ∧ a.result.status ≠ 0 ∧
      (!a.result.exitRequested) = true ∧ a.result.control = .none ∧ (a.failure.isSome = true ∨
        (!(["eval", ".", "trap"].map ascii).contains (command.argv.headD [])) = true) := by
    obtain ⟨hcategory, hstatus, hexit, hcontrol, hlenient⟩ := hfailing
    exact ⟨hcategory, hstatus, by simp [hexit], hcontrol, .inr (by simpa using hlenient)⟩
  have hfail : a.failStatus = a := by
    simp [Answer.failStatus, hfailure]
  simp only [hfail, if_pos hspecial, Answer.settled]
  rfl

theorem simpleEnd_plain (env : Env W N) (tree : N) (hfailure : a.failure = none)
    (hrefused : a.result.redirectionFailed = false) :
    simpleEnd env tree false a = { a with result := { a.result with retainRedirects := false } } := by
  simp [simpleEnd, Answer.failStatus, hfailure, hrefused]

/-- A command without words has the status of its last command substitution. -/
theorem runtimeSimple_empty (h : Plain env tree command spent) (hargv : command.argv = [])
    (fuel : ℕ) (direct : Bool) (sh : Shell W N) :
    runtimeSimple env exec (fuel + 1) direct sh tree = some
      { result := { status := command.substitutionStatus }
        shell := (sh.spend spent).setStatus command.substitutionStatus } := by
  have hcategory : (validatedCategory env (sh.spend spent) command).1 = .empty := by
    simp [Execute.validatedCategory, hargv]
  have hmanaged : managed env (sh.spend spent) command.argv = false := by
    simp [managed, hargv]
  have hresolvable : resolvable command .empty .none = true := by
    simp [resolvable, hargv]
  rw [runtimeSimple_plain h, simpleDispatch_plain h (fuel + 1) direct _ hcategory (by decide)
    fun _ => hmanaged]
  simp only [if_true, executeResolved, hresolvable, Bool.not_true, Bool.false_eq_true, if_false,
    assignmentsApply_none h.unassigned, reduceCtorEq, hargv, Option.bind_eq_bind, Option.bind_some]
  rw [resolvedEnd_plain command rfl (by simp [Failing]), Answer.settled, simpleEnd_plain]
  all_goals rfl

/-! ### Loop control -/

/-- The operand of `break` and `continue`. -/
def Levels (args : List Bytes) (n : ℕ) : Prop :=
  0 < n ∧ (skipDashes args = [] ∧ n = 1 ∨
    ∃ operand, skipDashes args = [operand] ∧ numericOperand operand = some (n : ℤ))

theorem flowControl_transfer {sh : Shell W N} {n : ℕ}
    (hname : name = ascii "break" ∨ name = ascii "continue") (hlevels : Levels args n)
    (hloop : sh.context.loopDepth ≠ 0) (result : Execution) :
    flowControl sh name args result = { result with
      control := if name = ascii "break" then .breakLoop else .continueLoop
      levels := min n sh.context.loopDepth
      status := 0 } := by
  have hreturn : (name == ascii "return") = false := by
    rcases hname with rfl | rfl <;> decide
  have hmin : (if (n : ℤ) > sh.context.loopDepth then sh.context.loopDepth else (n : ℤ).toNat)
      = min n sh.context.loopDepth := by
    split <;> omega
  have hpositive : ¬(n : ℤ) ≤ 0 := by
    have := hlevels.1
    omega
  unfold flowControl
  simp only [hreturn, Bool.false_eq_true, if_false, if_neg hloop, beq_iff_eq, Bool.not_false,
    Bool.true_and, decide_eq_true_eq]
  rcases hlevels.2 with ⟨hargs, rfl⟩ | ⟨operand, hargs, hoperand⟩
  · simp only [hargs]
    simpa using hmin
  · simp only [hargs, hoperand, if_neg hpositive, hmin]

/-- A control builtin is a special builtin run by `flow_handler`. -/
theorem runtimeSimple_control (h : Plain env tree command spent)
    (hargv : command.argv = name :: args) (hcontrol : controlName name = true)
    (hjobs : env.isJobsBuiltin name = false) (fuel : ℕ) (direct : Bool) (sh : Shell W N) :
    runtimeSimple env exec (fuel + 1) direct sh tree = some (simpleEnd env tree false
      (resolvedEnd command []
        { result := flowControl (sh.spend spent) name args { category := .specialBuiltin }
          shell := sh.spend spent })) := by
  have hcategory : (validatedCategory env (sh.spend spent) command).1 = .specialBuiltin := by
    simp [Execute.validatedCategory, hargv, commandCategory, hcontrol]
  have hmanaged : managed env (sh.spend spent) command.argv = false := by
    simp [managed, hargv, hjobs]
  have hresolvable : resolvable command .specialBuiltin .bootstrap = true := by
    simp [resolvable, hargv]
  rw [runtimeSimple_plain h, simpleDispatch_plain h (fuel + 1) direct _ hcategory (by decide)
    fun _ => hmanaged]
  simp only [reduceCtorEq, if_false, executeResolved, hresolvable, Bool.not_true,
    Bool.false_eq_true, assignmentsApply_none h.unassigned, hargv, Option.bind_eq_bind,
    bootstrapHandler, hcontrol, if_true, Option.bind_some]
  rfl

/-- **`break n` and `continue n`** in a loop of the current function: the transfer is to
the `n`-th enclosing loop, or to the outermost one if there are fewer. -/
theorem runtimeSimple_transfer (h : Plain env tree command spent)
    {n : ℕ} (hargv : command.argv = name :: args)
    (hname : name = ascii "break" ∨ name = ascii "continue") (hlevels : Levels args n)
    (hjobs : env.isJobsBuiltin name = false) (fuel : ℕ) (direct : Bool) (sh : Shell W N)
    (hloop : sh.context.loopDepth ≠ 0) :
    runtimeSimple env exec (fuel + 1) direct sh tree = some
      { result :=
          { control := if name = ascii "break" then .breakLoop else .continueLoop
            levels := min n sh.context.loopDepth
            category := .specialBuiltin }
        shell := (sh.spend spent).setStatus 0 } := by
  have hcontrol : controlName name = true := by
    rcases hname with rfl | rfl <;> decide
  have hloops : (sh.spend spent).context.loopDepth ≠ 0 := hloop
  have hflow := flowControl_transfer hname hlevels hloops { category := .specialBuiltin }
  rw [runtimeSimple_control h hargv hcontrol hjobs, hflow,
    resolvedEnd_plain command rfl (by simp [Failing]), Answer.settled, simpleEnd_plain]
  all_goals rfl

/-- Outside every loop `break` and `continue` fail as special builtins do. -/
theorem runtimeSimple_stray (h : Plain env tree command spent)
    {n : ℕ} (hargv : command.argv = name :: args)
    (hname : name = ascii "break" ∨ name = ascii "continue") (hlevels : Levels args n)
    (hjobs : env.isJobsBuiltin name = false) (fuel : ℕ) (direct : Bool) (sh : Shell W N)
    (hloop : sh.context.loopDepth = 0) :
    runtimeSimple env exec (fuel + 1) direct sh tree = some
      { result := { status := 2, specialBuiltinError := true, category := .specialBuiltin }
        shell := (sh.spend spent).setStatus 2 } := by
  have hcontrol : controlName name = true := by
    rcases hname with rfl | rfl <;> decide
  have hflow : flowControl (sh.spend spent) name args { category := .specialBuiltin }
      = { status := 2, category := .specialBuiltin } := by
    have hloops : (sh.spend spent).context.loopDepth = 0 := hloop
    have hreturn : (name == ascii "return") = false := by
      rcases hname with rfl | rfl <;> decide
    unfold flowControl
    rcases hlevels.2 with ⟨hargs, -⟩ | ⟨operand, hargs, hoperand⟩
    · simp [hargs, hreturn, hloops]
    · simp [hargs, hoperand, hreturn, hloops]
  have hlenient : (["eval", ".", "trap"].map ascii).contains (command.argv.headD []) = false := by
    rw [hargv, List.headD_cons]
    rcases hname with rfl | rfl <;> decide
  rw [runtimeSimple_control h hargv hcontrol hjobs, hflow,
    resolvedEnd_failing rfl ⟨rfl, by norm_num, rfl, rfl, hlenient⟩, Answer.settled, simpleEnd_plain]
  all_goals rfl

/-! ### Function calls -/

/-- The record of a function call: `return` goes no further. -/
def Execution.called (result : Execution) : Execution :=
  { (if result.control = .returnCall then { result with control := .none, levels := 0 }
      else result : Execution) with category := .function }

/-- What the caller gets of a function's answer. -/
def calledEnd (sh : Shell W N) (a : Answer W N) : Answer W N :=
  { a with
    result := { a.result.called with retainRedirects := false }
    shell := Reference.leftCall sh a.shell a.result.status }

theorem called_keeps (result : Execution) :
    result.called.status = result.status ∧
      result.called.redirectionFailed = result.redirectionFailed ∧
      result.called.jobSuspended = result.jobSuspended ∧
      result.called.exitRequested = result.exitRequested ∧
      result.called.specialBuiltinError = result.specialBuiltinError := by
  unfold Execution.called
  split <;> exact ⟨rfl, rfl, rfl, rfl, rfl⟩

/-- The command calls a function. -/
structure Calls (env : Env W N) (tree : N) (command : Command) (spent : W → W) (name : Bytes)
    (args : List Bytes) (function : Function N) : Prop where
  plain : Plain env tree command spent
  argv : command.argv = name :: args
  ordinary : ([ascii "exit", ascii "trap"].contains name || controlName name) = false
  category : ∀ w s, (env.pathBuiltinCategory name false command w s).1 ≠ .specialBuiltin
  prepared : ∀ w s, env.prepare (.brace function.tree function.body) w s = (none, w)

theorem flowFunction_eq (hstack : ∀ w s, env.stackExhausted w s = (false, w))
    (hprepared : ∀ w s, env.prepare (.brace function.tree function.body) w s = (none, w))
    (sh : Shell W N) (hfunction : sh.state.function name = some function) (result : Execution) :
    flowFunction env exec sh name args result =
      (exec (Reference.called args sh) (.brace function.tree function.body) >>= fun a =>
        some { a with
          result := a.result.called
          shell := ((a.shell.withState ((a.shell.state.setFunctionDepth
            sh.state.info.functionDepth).popParameters
              (sh.state.arguments, sh.state.info.argumentCount))).setLoopDepth
                sh.context.loopDepth) }) := by
  have hexhausted : Query.on env.stackExhausted sh = (false, sh) := by
    simp [Query.on, hstack]
  have hprepare : Query.on (env.prepare (.brace function.tree function.body)) sh = (none, sh) := by
    simp [Query.on, hprepared]
  unfold flowFunction
  simp only [hfunction, hexhausted, Bool.false_eq_true, if_false, hprepare]
  rfl

theorem runtimeSimple_call (h : Calls env tree command spent name args function)
    (hstack : ∀ w s, env.stackExhausted w s = (false, w)) (fuel : ℕ) (direct : Bool)
    (sh : Shell W N) (hfunction : sh.state.function name = some function)
    (hanswer : ∀ a, exec (Reference.called args (sh.spend spent))
      (.brace function.tree function.body) = some a →
        a.failure = none ∧ a.replaced = none ∧ a.result.redirectionFailed = false) :
    runtimeSimple env exec (fuel + 1) direct sh tree =
      (exec (Reference.called args (sh.spend spent)) (.brace function.tree function.body)).map
        (calledEnd (sh.spend spent)) := by
  obtain ⟨hplain, hargv, hordinary, hcategory, hprepared⟩ := h
  have hcontrol : controlName name = false := (Bool.or_eq_false_iff.mp hordinary).2
  have hdefined : (sh.spend spent).state.function name = some function := hfunction
  have hlooked : (validatedCategory env (sh.spend spent) command).1 = .function := by
    have hpath := hcategory (sh.spend spent).world (sh.spend spent).state
    have hfound : (Query.on (env.pathBuiltinCategory name false command) (sh.spend spent)).1
        ≠ .specialBuiltin := hpath
    simp only [Execute.validatedCategory, hargv, commandCategory, hordinary, Bool.false_eq_true,
      if_false, state_query, hdefined, Option.isSome_some, Bool.and_true]
    rw [if_pos (by simpa using hfound)]
  have hresolvable : resolvable command .function .bootstrap = true := by
    simp [resolvable, hargv]
  rw [runtimeSimple_plain hplain, simpleDispatch_plain hplain (fuel + 1) direct _ hlooked
    (by decide) fun hne => absurd rfl hne]
  have hwith : (sh.spend spent).withState (sh.spend spent).state = sh.spend spent := rfl
  simp only [reduceCtorEq, if_false, executeResolved, hresolvable, Bool.not_true,
    Bool.false_eq_true, assignmentsApply_none hplain.unassigned, hargv, Option.bind_eq_bind,
    bootstrapHandler, hcontrol, if_true, hwith]
  rw [flowFunction_eq hstack hprepared _ hdefined]
  cases hran : exec (Reference.called args (sh.spend spent))
    (.brace function.tree function.body) with
  | none => rfl
  | some a =>
    obtain ⟨hfailure, hreplaced, hrefused⟩ := hanswer a hran
    obtain ⟨hstatus, hredirection, -⟩ := called_keeps a.result
    simp only [Option.bind_eq_bind, Option.bind_some, Option.map_some]
    rw [resolvedEnd_plain command (by exact hfailure) (by simp [Failing, Execution.called]),
      Answer.settled, if_neg (by simp [hreplaced]), simpleEnd_plain env tree (by exact hfailure)
        (hredirection.trans hrefused), hstatus]
    rfl

/-- No loop outside a function can be reached from its body. -/
theorem control_of_called {sh : Shell W N}
    (h : Contained (Reference.called args sh) a) :
    a.result.control = .none ∨ a.result.control = .returnCall := by
  have hbounded := h.2.1
  have hdepth : (Reference.called args sh).frame.context.loopDepth = 0 := rfl
  rw [hdepth] at hbounded
  cases hcontrol : a.result.control with
  | none => exact .inl rfl
  | returnCall => exact .inr rfl
  | breakLoop =>
    have := hbounded (.inl hcontrol)
    omega
  | continueLoop =>
    have := hbounded (.inr hcontrol)
    omega

theorem encodes_calledEnd {sh : Shell W N} {o : Outcome} {sh' : Shell W N}
    (h : Encodes a o sh') (hcontrol : a.result.control = .none ∨ a.result.control = .returnCall)
    (loops : ℕ) :
    Encodes (calledEnd sh a) (o.returned.clamp loops) (Reference.leftCall sh sh' o.status) := by
  obtain ⟨hstatus, hredirection, hsuspended, hexit, hspecial⟩ := called_keeps a.result
  have hshell : (calledEnd sh a).shell = Reference.leftCall sh sh' o.status := by
    rw [← h.shell, ← h.status]
    rfl
  have hinteractive : (calledEnd sh a).shell.interactive = a.shell.interactive := by
    simp only [calledEnd, Reference.leftCall, Shell.interactive, Shell.setStatus, Shell.withState,
      State.setStatus, Shell.setLoopDepth]
    split <;> rfl
  have hnone : (calledEnd sh a).result.control = .none := by
    simp only [calledEnd, Execution.called]
    rcases hcontrol with hc | hc <;> simp [hc]
  have houtcome := h.outcome
  have hend : (calledEnd sh a).outcome = o.returned.clamp loops := by
    unfold Answer.outcome at houtcome ⊢
    rw [hnone, hinteractive]
    have hflags : (calledEnd sh a).result.status = a.result.status ∧
        (calledEnd sh a).result.exitRequested = a.result.exitRequested ∧
        (calledEnd sh a).result.specialBuiltinError = a.result.specialBuiltinError :=
      ⟨hstatus, hexit, hspecial⟩
    rw [hflags.1, hflags.2.1, hflags.2.2]
    rcases hcontrol with hc | hc
    · rw [hc] at houtcome
      dsimp only at houtcome ⊢
      rw [← houtcome]
      split
      · rfl
      · split <;> rfl
    · obtain ⟨hrequested, herror⟩ := h.transfer (by simp [hc])
      rw [hc] at houtcome
      rw [← houtcome]
      simp [hrequested, herror, Outcome.returned, Outcome.clamp]
  have hsame : (o.returned.clamp loops).status = o.status := by
    rw [status_clamp]
    cases o <;> rfl
  refine ⟨hshell, h.failure, h.replaced, hredirection.trans h.redirectionFailed,
    hsuspended.trans h.jobSuspended, hend, ?_, ?_, ?_, ?_⟩
  · rw [hsame]
    exact hstatus.trans h.status
  · rw [hsame]
    exact h.nonneg
  · exact fun hne => absurd hnone hne
  · simp [hnone]

/-- **A function call** does what the reference makes of the function's body. -/
theorem leafAgrees_call {errexit : Bool} {scope : Scope (Function N)}
    {run : Shell W N → Plan N → Option (Report W N)}
    (h : Calls env tree command spent name args function)
    (hquiet : Quiet env errexit scope) (hexec : Containing exec)
    (hbody : Simulates errexit scope exec run (.brace function.tree function.body)) (fuel : ℕ)
    (direct : Bool) (sh : Shell W N) (hready : Ready errexit scope sh.state)
    (hfunction : sh.state.function name = some function) :
    Option.Rel (LeafAgrees errexit scope direct sh)
      (runtimeSimple env exec (fuel + 1) direct sh tree)
      (Reference.call run function args (sh.spend spent)) := by
  have hcalled : Ready errexit scope (Reference.called args (sh.spend spent)).state :=
    hready.congr rfl rfl rfl
  have hmatch := hbody _ hcalled
  have hcontained := hexec (Reference.called args (sh.spend spent))
    (.brace function.tree function.body)
  rw [runtimeSimple_call h hquiet.stack fuel direct sh hfunction]
  · unfold Reference.call
    generalize exec (Reference.called args (sh.spend spent)) _ = x at hmatch hcontained ⊢
    generalize run (Reference.called args (sh.spend spent)) _ = y at hmatch ⊢
    cases hmatch with
    | none => exact Option.Rel.none
    | @some a r ha =>
      refine Option.Rel.some (.inl ⟨?_, ?_⟩)
      · exact encodes_calledEnd ha.encodes (control_of_called (hcontained a rfl)) _
      · apply Ready.setStatus
        exact ha.ready.congr rfl rfl rfl
  · intro a ha
    rw [ha] at hmatch
    generalize run (Reference.called args (sh.spend spent)) _ = y at hmatch
    cases hmatch with
    | some hagrees =>
      exact ⟨hagrees.encodes.failure, hagrees.encodes.replaced, hagrees.encodes.redirectionFailed⟩

end Callbacks

/-! ### A world of command substitutions -/

/-- An environment in which every simple command is entered in the log.  All but
`break 7` consist of a command substitution, which fails for `fail`. -/
def Env.substituting : Env (List Bytes) (List Bytes) :=
  { Env.truth with
    arguments := fun words =>
      ⟨fun log s => (.ok (if words = [ascii "break", ascii "7"] then { argv := words }
          else { substitutionStatus := if words = [ascii "fail"] then 1 else 0 }),
        log ++ [words.headD []], s), fun _ _ => rfl⟩ }

/-- What the simple commands of that environment do. -/
def substitutingLeaf : ℕ → Bool → Shell (List Bytes) (List Bytes) → List Bytes →
    Option (Outcome × Shell (List Bytes) (List Bytes))
  | 0, _, _, _ => none
  | _ + 1, _, sh, words =>
    let logged := sh.spend (· ++ [words.headD []])
    let status := if words = [ascii "fail"] then 1 else 0
    if words ≠ [ascii "break", ascii "7"] then some (.finished status, logged.setStatus status)
    else if sh.context.loopDepth ≠ 0 then some (.breaking 7, logged.setStatus 0)
    else some (if sh.interactive then .finished 2 else .aborted 2, logged.setStatus 2)

theorem quiet_substituting (errexit : Bool) (scope : Scope (Function (List Bytes))) :
    Quiet Env.substituting errexit scope where
  stack := fun _ _ => rfl
  word := fun n _ _ _ hready => ⟨⟨n, rfl⟩, hready, rfl⟩
  redirects := fun _ _ _ hready => ⟨rfl, hready⟩
  restore := fun _ _ _ => rfl
  reap := fun _ _ => rfl
  pending := fun _ _ => rfl
  exitAction := fun _ _ => rfl
  fork := fun _ _ _ _ => ⟨1, rfl⟩
  jobsCreate := fun _ _ => rfl
  stageWait := fun _ _ _ => rfl
  foreground := fun _ _ _ => rfl

theorem plain_substituting (words : List Bytes) :
    Plain Env.substituting words (if words = [ascii "break", ascii "7"] then { argv := words }
      else { substitutionStatus := if words = [ascii "fail"] then 1 else 0 })
      (· ++ [words.headD []]) where
  arguments := fun _ _ => rfl
  validate := fun _ _ => rfl
  hasRedirects := rfl
  assignments := fun _ _ => rfl
  unassigned := by split <;> rfl
  trace := fun _ _ => rfl
  category := fun _ _ _ => rfl

theorem settled_substituting (errexit : Bool) (scope : Scope (Function (List Bytes)))
    (words : List Bytes) :
    Settled Env.substituting errexit scope substitutingLeaf (.simple words) := by
  have hplain := plain_substituting words
  intro fuel direct sh hready
  have hready' : ∀ status, Ready errexit scope
      ((sh.spend (· ++ [words.headD []])).setStatus status).state := by
    intro status
    apply Ready.setStatus
    exact hready
  by_cases hbreak : words = [ascii "break", ascii "7"]
  · rw [if_pos hbreak] at hplain
    have hlevels : Levels [ascii "7"] 7 := ⟨by decide, .inr ⟨_, rfl, by decide⟩⟩
    cases fuel with
    | zero =>
      have hcategory : (validatedCategory Env.substituting (sh.spend (· ++ [words.headD []]))
          { argv := words }).1 = .specialBuiltin := by
        rw [hbreak]
        rfl
      have hmanaged : managed Env.substituting (sh.spend (· ++ [words.headD []])) words = false := by
        simp [managed, hbreak, Env.substituting, Env.truth, Env.literal]
      rw [runtimeSimple_zero hplain direct sh hcategory (by decide) fun _ => hmanaged]
      exact .none
    | succ fuel =>
      by_cases hloop : sh.context.loopDepth = 0
      · rw [runtimeSimple_stray hplain hbreak (.inl rfl) hlevels rfl fuel direct sh hloop]
        simp only [substitutingLeaf, if_neg (not_not.mpr hbreak), hloop, ne_eq, not_true, if_false]
        have hinteractive : ∀ spent, ((sh.spend spent).setStatus 2).interactive
            = sh.interactive := fun _ => rfl
        refine .some (.inl ⟨⟨rfl, rfl, rfl, rfl, rfl, ?_, ?_, ?_, by simp, by simp⟩, hready' 2⟩)
        all_goals cases hkind : sh.interactive
        all_goals simp [Answer.outcome, hinteractive, hkind, Outcome.clamp, Outcome.status]
      · rw [runtimeSimple_transfer hplain hbreak (.inl rfl) hlevels rfl fuel direct sh hloop]
        simp only [substitutingLeaf, if_neg (not_not.mpr hbreak), hloop, ne_eq, not_false_eq_true,
          if_true]
        refine .some (.inl ⟨⟨rfl, rfl, rfl, rfl, rfl, rfl, rfl, le_refl 0, fun _ => ⟨rfl, rfl⟩, ?_⟩,
          hready' 0⟩)
        intro _
        exact Nat.le_min.mpr ⟨by norm_num, Nat.one_le_iff_ne_zero.mpr hloop⟩
  · rw [if_neg hbreak] at hplain
    cases fuel with
    | zero =>
      have hcategory : (validatedCategory Env.substituting (sh.spend (· ++ [words.headD []]))
          { substitutionStatus := if words = [ascii "fail"] then 1 else 0 }).1 = .empty := rfl
      rw [runtimeSimple_zero hplain direct sh hcategory (by decide) fun _ => rfl]
      exact .none
    | succ fuel =>
      rw [runtimeSimple_empty hplain rfl fuel direct sh]
      simp only [substitutingLeaf, ne_eq, hbreak, not_false_eq_true, if_true]
      refine .some (.inl ⟨⟨rfl, rfl, rfl, rfl, rfl, rfl, rfl, ?_, by simp, by simp⟩, hready' _⟩)
      dsimp only [Outcome.clamp, Outcome.status]
      split <;> norm_num

end CShell.Execute
