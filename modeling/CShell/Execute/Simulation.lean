import CShell.State.Scope
import CShell.Execute.Invariant
import CShell.Execute.Reference

/-!
# The executor agrees with the reference interpreter

A lockstep simulation.  An answer of the executor *encodes* an outcome: the
control field, the exit and special-builtin flags, the status and the levels say
together what the reference says with one constructor.  The simulation also keeps
track of the one flag that the reference has no use for: where `errexit` is on and
not ignored, a failure that was let pass is marked as exempt, so that no enclosing
compound command can take it up.

The assumptions are those under which the reference makes sense at all: `noexec`
off, expansions, redirections and forks that succeed, no pending trap, writable
loop variables, and simple commands that do what the given leaves say.

## Main definitions

* `Answer.outcome`, `Encodes` — the outcome a result record stands for.
* `Ready`, `Quiet`, `Settled` — the assumptions on the state, the world and the plan.
* `Agrees` — the simulation relation.

## Main results

* `agrees_executePlan` — **`executePlan` and `reference` agree on every run.**
-/

namespace CShell

/-! ### Writable variables -/

namespace State

variable {F : Type}

/-- An assignment to the variable would succeed. -/
def Writable (s : State F) (name : Bytes) : Prop :=
  validName name = true ∧
    ∀ v, findVariable s.vars name = some v → hasBit v.attributes Attr.readonly = false

/-- A variable found after an update was there before, changed by it or not. -/
theorem findVariable_modified {f : Variable → Variable} (hf : ∀ v, (f v).name = v.name)
    (name name' : Bytes) (vars : List Variable) (v : Variable)
    (h : findVariable (modifyVariable name f vars) name' = some v) :
    ∃ u, findVariable vars name' = some u ∧ (v = u ∨ v = f u) := by
  rw [findVariable_modifyVariable hf] at h
  split at h
  · next hname =>
    obtain ⟨u, hu, heq⟩ := Option.map_eq_some_iff.mp h
    exact ⟨u, hname ▸ hu, .inr heq.symm⟩
  · exact ⟨v, h, .inl rfl⟩

theorem assigned_vars (s : State F) (name : Bytes) : (s.assigned name).vars = s.vars := by
  unfold assigned hashClear
  split <;> split <;> rfl

theorem functions_assigned (s : State F) (name : Bytes) :
    (s.assigned name).functions = s.functions := by
  unfold assigned hashClear
  split <;> split <;> rfl

theorem functions_setVariable (s : State F) (name value : Bytes) :
    (s.setVariable name value).2.functions = s.functions := by
  unfold State.setVariable
  split
  · rfl
  · split
    · split
      · rfl
      · rw [functions_assigned]
    · rw [functions_assigned]

theorem functions_updateAttributes (s : State F) (name : Bytes) (set clear : UInt32) :
    (s.updateAttributes name set clear).2.functions = s.functions := by
  unfold State.updateAttributes
  dsimp only
  split
  · rfl
  · split
    · split <;> rfl
    · split <;> rfl

/-- Assigning a writable variable succeeds and takes no variable's writability away. -/
theorem Writable.setVariable {s : State F} {name : Bytes} (h : s.Writable name) (value : Bytes) :
    (s.setVariable name value).1 = .ok ∧
      ∀ name', s.Writable name' → (s.setVariable name value).2.Writable name' := by
  unfold State.setVariable
  rw [if_neg (by simp [h.1])]
  cases hfind : findVariable s.vars name with
  | some v =>
    dsimp only
    rw [if_neg (by simp [h.2 v hfind])]
    refine ⟨rfl, fun name' h' => ⟨h'.1, fun u hu => ?_⟩⟩
    rw [assigned_vars] at hu
    obtain ⟨u', hu', heq | heq⟩ := findVariable_modified (by intro; rfl) _ _ _ _ hu
    · rw [heq]
      exact h'.2 u' hu'
    · rw [heq]
      exact (readonly_exportOnAssign _ _).trans (h'.2 u' hu')
  | none =>
    refine ⟨rfl, fun name' h' => ⟨h'.1, fun u hu => ?_⟩⟩
    rw [assigned_vars, findVariable, List.find?_cons] at hu
    split at hu
    · cases hu
      exact (readonly_exportOnAssign _ _).trans (by decide)
    · exact h'.2 u hu

/-- Exporting a variable succeeds and takes no variable's writability away. -/
theorem writable_updateAttributes {s : State F} {name : Bytes} (h : s.Writable name) :
    (s.updateAttributes name Attr.exported 0).1 = .ok ∧
      ∀ name', s.Writable name' → (s.updateAttributes name Attr.exported 0).2.Writable name' := by
  have hmasks : ((Attr.exported ||| 0) &&& ~~~Attr.all != 0 || Attr.exported &&& 0 != 0) = false ∧
      hasBit 0 Attr.readonly = false := by decide
  unfold State.updateAttributes
  dsimp only
  rw [if_neg (by rw [h.1, Bool.not_true, Bool.false_or, hmasks.1]; simp)]
  cases hfind : findVariable s.vars name with
  | some v =>
    dsimp only
    rw [if_neg (by simp [hmasks.2])]
    refine ⟨rfl, fun name' h' => ⟨h'.1, fun u hu => ?_⟩⟩
    obtain ⟨u', hu', heq | heq⟩ := findVariable_modified (by intro; rfl) _ _ _ _ hu
    · rw [heq]
      exact h'.2 u' hu'
    · rw [heq]
      have hmask : (u'.attributes ||| Attr.exported) &&& ~~~(0 : UInt32)
          = u'.attributes ||| Attr.exported := by simp
      dsimp only
      rw [hmask]
      exact (readonly_or_exported _).trans (h'.2 u' hu')
  | none =>
    dsimp only
    have hattributes : (Attr.exported &&& ~~~(0 : UInt32) == 0) = false ∧
        hasBit (Attr.exported &&& ~~~(0 : UInt32)) Attr.readonly = false := by decide
    rw [if_neg (by rw [hattributes.1]; simp)]
    refine ⟨rfl, fun name' h' => ⟨h'.1, fun u hu => ?_⟩⟩
    rw [findVariable, List.find?_cons] at hu
    split at hu
    · cases hu
      exact hattributes.2
    · exact h'.2 u hu

end State

namespace Execute

variable {W N F : Type}

/-! ### Encoded outcomes -/

/-- The outcome a result record stands for. -/
def Answer.outcome (a : Answer W N) : Outcome :=
  match a.result.control with
  | .breakLoop => .breaking a.result.levels
  | .continueLoop => .continuing a.result.levels
  | .returnCall => .returning a.result.status
  | .none =>
    if a.result.exitRequested then .exited a.result.status
    else if a.result.specialBuiltinError && !a.shell.interactive then .aborted a.result.status
    else .finished a.result.status

/-- An answer without an error of the shell itself, standing for an outcome. -/
structure Encodes (a : Answer W N) (o : Outcome) (sh : Shell W N) : Prop where
  shell : a.shell = sh
  failure : a.failure = none
  replaced : a.replaced = none
  redirectionFailed : a.result.redirectionFailed = false
  jobSuspended : a.result.jobSuspended = false
  outcome : a.outcome = o
  status : a.result.status = o.status
  nonneg : 0 ≤ o.status
  transfer : a.result.control ≠ .none →
    a.result.exitRequested = false ∧ a.result.specialBuiltinError = false
  levels : a.result.control = .breakLoop ∨ a.result.control = .continueLoop → 1 ≤ a.result.levels

/-- A command that came to its end, with or without permission to go on. -/
def Outcome.Completed : Outcome → Prop
  | .finished _ | .aborted _ => True
  | _ => False

/-! ### The assumptions -/

/-- What a plan may rely on: variables that can be assigned, and function tables that
all of its commands leave in place. -/
structure Scope (F : Type) where
  names : List Bytes
  tables : Set (List (Bytes × F))

/-- A state the reference applies to: `noexec` is off, `errexit` as given, the loop
variables can be assigned and the functions are those of the scope. -/
structure Ready (errexit : Bool) (scope : Scope F) (s : State F) : Prop where
  noexec : s.option Opt.noexec = false
  errexit : s.option Opt.errexit = errexit
  writable : ∀ name ∈ scope.names, s.Writable name
  functions : s.functions ∈ scope.tables

/-- A world in which nothing the executor asks for fails, and no trap is pending. -/
structure Quiet (env : Env W N) (errexit : Bool) (scope : Scope (Function N)) : Prop where
  stack : ∀ w s, env.stackExhausted w s = (false, w)
  word : ∀ n c w s, Ready errexit scope s →
    (∃ fields, ((env.prepareWord n c).run w s).1 = .ok fields) ∧
      Ready errexit scope ((env.prepareWord n c).run w s).2.2 ∧
      ((env.prepareWord n c).run w s).2.2.option Opt.interactive = s.option Opt.interactive
  redirects : ∀ tree w s, Ready errexit scope s →
    ((env.redirects tree {}).run w s).1.1 = .applied ∧
      Ready errexit scope ((env.redirects tree {}).run w s).2.2
  restore : ∀ tree w s, (env.restore tree false w s).1 = none
  reap : ∀ w s, (env.reap w s).1 = none
  pending : ∀ w s, env.trapsFirstPending w s = (0, w)
  exitAction : ∀ w s, env.trapsExitAction w s = (.ok none, w)
  fork : ∀ n asynchronous w s, ∃ pid, (env.fork n asynchronous w s).1 = .ok pid
  jobsCreate : ∀ w s, (env.jobsCreate w s).1 = true
  stageWait : ∀ n w s, (env.stageWait n w s).1 = .ok fun _ => .exited
  foreground : ∀ n w s, (env.foreground n w s).1 = .completed fun _ => .exited

/-- What a simple command does is what its leaf says; in a child it may also turn
into another program. -/
def LeafAgrees (errexit : Bool) (scope : Scope (Function N)) (direct : Bool) (sh : Shell W N)
    (a : Answer W N) (r : Outcome × Shell W N) : Prop :=
  Encodes a (r.1.clamp sh.context.loopDepth) r.2 ∧ Ready errexit scope r.2.state ∨
    direct = true ∧ a.replaced = some r.1.status ∧ a.shell.world = r.2.world

/-- The assumptions on one node of a plan: simple commands behave as the leaves say,
loop variables have a name of the scope, and definitions define. -/
def Settled (env : Env W N) (errexit : Bool) (scope : Scope (Function N))
    (leaf : ℕ → Bool → Shell W N → N → Option (Outcome × Shell W N)) : Plan N → Prop
  | .simple tree => ∀ fuel direct sh, Ready errexit scope sh.state →
      Option.Rel (LeafAgrees errexit scope direct sh)
        (runtimeSimple env (executePlan env fuel) fuel direct sh tree) (leaf fuel direct sh tree)
  | .forClause _ name _ _ => ∀ w s, Ready errexit scope s →
      ∃ x ∈ scope.names, ((env.prepareWord name .redirection).run w s).1 = .ok [x]
  | .function tree name body => ∀ w s, Ready errexit scope s →
      ∃ x, ((env.prepareWord name .redirection).run w s).1 = .ok [x] ∧
        specialName x = false ∧ validName x = true ∧
        ∀ table ∈ scope.tables, Table.put x ⟨tree, body⟩ table ∈ scope.tables
  | _ => True

/-- A node that a node runs. -/
inductive Plan.Child : Plan N → Plan N → Prop
  | first {negated first rest} : Child first (.pipeline negated first rest)
  | stage {negated first rest plan} (h : plan ∈ rest) : Child plan (.pipeline negated first rest)
  | andLeft {left right} : Child left (.and left right)
  | andRight {left right} : Child right (.and left right)
  | orLeft {left right} : Child left (.or left right)
  | orRight {left right} : Child right (.or left right)
  | item {items asynchronous plan} (h : (asynchronous, plan) ∈ items) : Child plan (.list items)
  | subshell {tree body} : Child (.brace tree body) (.subshell tree body)
  | brace {tree body} : Child body (.brace tree body)
  | condition {tree branches otherwise condition body} (h : (condition, body) ∈ branches) :
      Child condition (.ifClause tree branches otherwise)
  | branch {tree branches otherwise condition body} (h : (condition, body) ∈ branches) :
      Child body (.ifClause tree branches otherwise)
  | otherwise {tree branches body} : Child body (.ifClause tree branches (some body))
  | forBody {tree name words body} : Child body (.forClause tree name words body)
  | loopCondition {tree isWhile condition body} : Child condition (.loop tree isWhile condition body)
  | loopBody {tree isWhile condition body} : Child body (.loop tree isWhile condition body)
  | caseItem {tree word items patterns body falls} (h : (patterns, body, falls) ∈ items) :
      Child body (.caseClause tree word items)

/-- A property of a node and of everything it runs. -/
def Plan.Everywhere (P : Plan N → Prop) (plan : Plan N) : Prop :=
  ∀ part, Relation.ReflTransGen Plan.Child part plan → P part

variable {P : Plan N → Prop} {plan : Plan N} {a : Answer W N} {o : Outcome} {sh sh' : Shell W N}
  {x : Option (Answer W N)}

theorem Plan.Everywhere.self (h : plan.Everywhere P) : P plan :=
  h plan .refl

theorem Plan.Everywhere.child {part plan : Plan N} (h : plan.Everywhere P)
    (hchild : Plan.Child part plan) : part.Everywhere P :=
  fun q hq => h q (hq.tail hchild)

theorem Plan.Everywhere.intro (hself : P plan)
    (hparts : ∀ part, Plan.Child part plan → part.Everywhere P) : plan.Everywhere P := by
  intro part hpart
  rcases Relation.ReflTransGen.cases_tail hpart with heq | ⟨child, hrest, hchild⟩
  · rw [← heq]
    exact hself
  · exact hparts child hchild part hrest

/-! ### The simulation relation -/

/-- The outcome is encoded in an answer that keeps the frame; where `errexit` is on
and not ignored, a failure that was let pass is marked. -/
structure Agrees (errexit : Bool) (scope : Scope (Function N)) (sh : Shell W N) (a : Answer W N)
    (o : Outcome) (sh' : Shell W N) : Prop where
  encodes : Encodes a o sh'
  frame : sh'.frame = sh.frame
  ready : Ready errexit scope sh'.state
  exempt : errexit = true → sh.state.info.errexitIgnored = 0 → o.Completed → o.status ≠ 0 →
    a.result.errexitIgnored = true

/-- What holds after the end every node shares: whatever was run while `errexit` was
ignored is marked. -/
structure NodeAgrees (errexit : Bool) (scope : Scope (Function N)) (sh : Shell W N) (a : Answer W N)
    (o : Outcome) (sh' : Shell W N) : Prop extends Agrees errexit scope sh a o sh' where
  tested : sh.state.info.errexitIgnored ≠ 0 → a.result.errexitIgnored = true

/-- Runs that answer together, in a relation. -/
def Matching (R : Answer W N → Outcome → Shell W N → Prop) (x : Option (Answer W N))
    (y : Option (Report W N)) : Prop :=
  Option.Rel (fun a r => R a r.outcome r.shell) x y

variable {R S : Answer W N → Outcome → Shell W N → Prop}

theorem Matching.halt (h : R a o sh) :
    Matching R (some a) (halt o sh) := .some h

theorem Matching.imp {y : Option (Report W N)} (h : Matching R x y)
    (hRS : ∀ a o sh, R a o sh → S a o sh) : Matching S x y := by
  cases h with
  | none => exact .none
  | some h => exact .some (hRS _ _ _ h)

theorem Matching.follow {y : Option (Report W N)}
    {f : Answer W N → Option (Answer W N)} {k : Outcome → Shell W N → Option (Report W N)}
    (h : Matching R x y) (hk : ∀ a o sh, R a o sh → Matching S (f a) (k o sh)) :
    Matching S (x >>= f) (follow y k) := by
  cases h with
  | none => exact .none
  | @some a r h =>
    have hnext := hk a r.outcome r.shell h
    simp only [Execute.follow, Option.bind_eq_bind, Option.bind_some]
    generalize f a = x' at hnext ⊢
    generalize k r.outcome r.shell = y' at hnext ⊢
    cases hnext with
    | none => exact .none
    | some h' => exact .some h'

/-- A run in another frame, brought back to the one it started in. -/
theorem Matching.inside {frame : Frame → Frame}
    {run : Shell W N → Option (Report W N)}
    {f : Answer W N → Answer W N} (h : Matching R x (run (sh.enter (frame sh.frame))))
    (hf : ∀ a o sh', R a o sh' → S (f a) o (sh'.enter sh.frame)) :
    Matching S (x >>= fun a => some (f a)) (inside frame run sh) := by
  unfold Execute.inside
  generalize run (sh.enter (frame sh.frame)) = y at h ⊢
  cases h with
  | none => exact .none
  | some h => exact .some (hf _ _ _ h)

/-! ### Readiness and frames -/

theorem Ready.congr {errexit : Bool} {scope : Scope F} {s s' : State F}
    (h : Ready errexit scope s) (hoptions : s'.info.options = s.info.options)
    (hvars : s'.vars = s.vars) (hfunctions : s'.functions = s.functions) :
    Ready errexit scope s' := by
  refine ⟨?_, ?_, fun name hname => ?_, hfunctions ▸ h.functions⟩
  · exact (congrArg (hasBit · Opt.noexec) hoptions).trans h.noexec
  · exact (congrArg (hasBit · Opt.errexit) hoptions).trans h.errexit
  · unfold State.Writable
    rw [hvars]
    exact h.writable name hname

theorem Ready.setStatus {errexit : Bool} {scope : Scope (Function N)}
    (h : Ready errexit scope sh.state) (status : ℤ) :
    Ready errexit scope (sh.setStatus status).state := by
  simp only [Shell.setStatus, Shell.withState, State.setStatus]
  split <;> exact h.congr rfl rfl rfl

theorem Ready.setBackground {errexit : Bool} {scope : Scope F} {s : State F}
    (h : Ready errexit scope s) (pid : ℤ) : Ready errexit scope (s.setBackground pid).2 := by
  unfold State.setBackground
  split <;> exact h.congr rfl rfl rfl

theorem Ready.enter {errexit : Bool} {scope : Scope (Function N)}
    (h : Ready errexit scope sh.state) (frame : Frame) :
    Ready errexit scope (sh.enter frame).state := h.congr rfl rfl rfl

/-- Clearing `interactive` leaves `noexec` and `errexit` alone. -/
theorem Ready.child {errexit : Bool} {scope : Scope F} {s : State F}
    (h : Ready errexit scope s) :
    Ready errexit scope (s.updateOptions 0 Opt.interactive).2 := by
  have hoptions : ∀ mask : UInt32, ~~~Opt.interactive &&& mask = mask →
      (s.updateOptions 0 Opt.interactive).2.option mask = s.option mask := by
    intro mask hmask
    unfold State.updateOptions
    rw [if_neg (by decide)]
    simp only [State.option, hasBit, UInt32.or_zero, UInt32.and_assoc, hmask]
  refine ⟨(hoptions _ (by decide)).trans h.noexec, (hoptions _ (by decide)).trans h.errexit, ?_, ?_⟩
  · intro name hname
    unfold State.updateOptions
    split <;> exact h.writable name hname
  · unfold State.updateOptions
    split <;> exact h.functions

theorem leave_tested (h : sh'.frame = sh.frame.tested) :
    sh'.setErrexitIgnored sh.state.info.errexitIgnored = sh'.enter sh.frame := by
  have hcontext : sh'.context = sh.context := congrArg Frame.context h
  have hsource : sh'.state.info.sourceDepth = sh.state.info.sourceDepth :=
    congrArg (fun f => f.depths.source) h
  have hfunction : sh'.state.info.functionDepth = sh.state.info.functionDepth :=
    congrArg (fun f => f.depths.function) h
  simp only [Shell.setErrexitIgnored, Shell.enter, Shell.withState, State.setErrexitIgnored,
    State.withDepths, Shell.frame, State.depths, ← hcontext, ← hsource, ← hfunction]

theorem leave_looped (h : sh'.frame = sh.frame.looped) :
    sh'.setLoopDepth sh.context.loopDepth = sh'.enter sh.frame := by
  have hcontext : sh'.context = sh.frame.looped.context := congrArg Frame.context h
  have hdepths : sh'.state.depths = sh.state.depths := congrArg Frame.depths h
  have hstate : sh'.state.withDepths sh.state.depths = sh'.state := by rw [← hdepths]; rfl
  simp only [Shell.setLoopDepth, Shell.enter, hcontext, Shell.frame, hstate, Frame.looped]

theorem Encodes.enter (h : Encodes a o sh)
    (frame : Frame) : Encodes { a with shell := a.shell.enter frame } o (sh.enter frame) where
  shell := by rw [h.shell]
  failure := h.failure
  replaced := h.replaced
  redirectionFailed := h.redirectionFailed
  jobSuspended := h.jobSuspended
  outcome := h.outcome
  status := h.status
  nonneg := h.nonneg
  transfer := h.transfer
  levels := h.levels

/-- The outcomes after which the next command runs. -/
def Outcome.isFinished : Outcome → Bool
  | .finished _ => true
  | _ => false

/-- The executor goes on exactly where the reference does. -/
theorem Encodes.halted_eq {errexit : Bool} {scope : Scope (Function N)}
    (h : Encodes a o sh) (hready : Ready errexit scope sh.state) :
    (a.failure.isSome || halted a.shell a.result) = !o.isFinished := by
  have hnoexec : a.shell.noexec = false := by rw [h.shell]; exact hready.noexec
  have houtcome := h.outcome
  unfold Answer.outcome at houtcome
  simp only [h.failure, halted, stopped, h.jobSuspended, hnoexec, Option.isSome_none,
    Bool.false_or, Bool.or_false]
  cases hcontrol : a.result.control with
  | none =>
    rw [hcontrol] at houtcome
    dsimp only at houtcome
    by_cases hexit : a.result.exitRequested
    · rw [if_pos hexit] at houtcome
      simp [← houtcome, Outcome.isFinished, hexit]
    · rw [if_neg hexit] at houtcome
      by_cases hspecial : (a.result.specialBuiltinError && !a.shell.interactive) = true
      · rw [if_pos hspecial] at houtcome
        simp [← houtcome, Outcome.isFinished, hspecial]
      · rw [if_neg hspecial] at houtcome
        simp only [Bool.not_eq_true] at hexit hspecial
        simp [← houtcome, Outcome.isFinished, hexit, hspecial]
  | breakLoop | continueLoop | returnCall =>
    rw [hcontrol] at houtcome
    simp [← houtcome, Outcome.isFinished]

theorem Encodes.flags {status : ℤ}
    (h : Encodes a (.finished status) sh) :
    a.result.control = .none ∧ a.result.exitRequested = false ∧
      (a.result.specialBuiltinError && !a.shell.interactive) = false := by
  have houtcome := h.outcome
  unfold Answer.outcome at houtcome
  cases hcontrol : a.result.control with
  | none =>
    rw [hcontrol] at houtcome
    dsimp only at houtcome
    split at houtcome
    · simp at houtcome
    · split at houtcome
      · simp at houtcome
      · rename_i hexit hspecial
        exact ⟨rfl, by simpa using hexit, by simpa using hspecial⟩
  | breakLoop | continueLoop | returnCall => simp [hcontrol] at houtcome

/-- A command that finished may be given another status. -/
theorem Encodes.withStatus {status : ℤ}
    (h : Encodes a (.finished status) sh) {status' : ℤ} (hstatus : 0 ≤ status') (ignored : Bool) :
    Encodes { a with result := { a.result with status := status', errexitIgnored := ignored } }
      (.finished status') sh where
  shell := h.shell
  failure := h.failure
  replaced := h.replaced
  redirectionFailed := h.redirectionFailed
  jobSuspended := h.jobSuspended
  outcome := by
    obtain ⟨hcontrol, hexit, hspecial⟩ := h.flags
    simp [Answer.outcome, hcontrol, hexit, hspecial]
  status := rfl
  nonneg := hstatus
  transfer := h.transfer
  levels := h.levels

/-! ### Conditions, `&&`, `||` and `if` -/

section Callbacks

variable {env : Env W N} {errexit : Bool} {scope : Scope (Function N)}
  {exec : Shell W N → Plan N → Option (Answer W N)}
  {leaf : ℕ → Bool → Shell W N → N → Option (Outcome × Shell W N)}
  {run : Shell W N → Plan N → Option (Report W N)}

/-- Running a plan in the executor and in the reference, from any ready shell. -/
def Simulates (errexit : Bool) (scope : Scope (Function N))
    (exec : Shell W N → Plan N → Option (Answer W N))
    (run : Shell W N → Plan N → Option (Report W N)) (plan : Plan N) : Prop :=
  ∀ sh, Ready errexit scope sh.state →
    Matching (NodeAgrees errexit scope sh) (exec sh plan) (run sh plan)

theorem Agrees.of_frame {sh sh₁ : Shell W N}
    (h : Agrees errexit scope sh₁ a o sh') (hframe : sh₁.frame = sh.frame) :
    Agrees errexit scope sh a o sh' where
  encodes := h.encodes
  frame := h.frame.trans hframe
  ready := h.ready
  exempt := by
    have hignored : sh₁.state.info.errexitIgnored = sh.state.info.errexitIgnored :=
      congrArg (fun f => f.depths.errexitIgnored) hframe
    rw [← hignored]
    exact h.exempt

/-- A condition is exempt whatever its status. -/
def TestAgrees (errexit : Bool) (scope : Scope (Function N)) (sh : Shell W N) (a : Answer W N)
    (o : Outcome) (sh' : Shell W N) : Prop :=
  Agrees errexit scope sh a o sh' ∧ a.result.errexitIgnored = true

theorem matching_test (hplan : Simulates errexit scope exec run plan)
    (sh : Shell W N) (hready : Ready errexit scope sh.state) :
    Matching (TestAgrees errexit scope sh) (executeTest exec sh plan)
      (Reference.test run sh plan) := by
  unfold executeTest Reference.test
  refine Matching.inside (hplan _ (hready.enter sh.frame.tested)) fun a o sh' h => ?_
  have hignored : a.result.errexitIgnored = true := h.tested (Nat.succ_ne_zero _)
  have hshell : a.shell.setErrexitIgnored sh.state.info.errexitIgnored = a.shell.enter sh.frame := by
    apply leave_tested
    rw [h.encodes.shell]
    exact h.frame
  refine ⟨⟨?_, rfl, h.ready.enter _, fun _ _ _ _ => hignored⟩, hignored⟩
  rw [hshell]
  exact h.encodes.enter sh.frame

theorem matching_andOr {left right : Plan N} (hleft : Simulates errexit scope exec run left)
    (hright : Simulates errexit scope exec run right) (wanted : Bool) (sh : Shell W N)
    (hready : Ready errexit scope sh.state) :
    Matching (Agrees errexit scope sh) (andOr exec wanted left right sh)
      (Reference.andOr run wanted left right sh) := by
  unfold andOr Reference.andOr
  refine Matching.follow (matching_test hleft sh hready) fun a o sh' h => ?_
  have hhalted := h.1.encodes.halted_eq h.1.ready
  cases o with
  | finished status =>
    have hstatus : a.result.status = status := h.1.encodes.status
    simp only [Outcome.isFinished, Bool.not_true, Bool.or_eq_false_iff] at hhalted
    simp only [h.1.encodes.failure, Option.isNone_none, hhalted.2,
      Bool.not_false, Bool.true_and, hstatus]
    split
    · rw [h.1.encodes.shell]
      exact (hright sh' h.1.ready).imp fun b o' sh'' hb => hb.toAgrees.of_frame h.1.frame
    · exact .halt h.1
  | aborted _ | exited _ | returning _ | breaking _ | continuing _ =>
    have hhalt : halted a.shell a.result = true := by
      simpa [Outcome.isFinished, h.1.encodes.failure] using hhalted
    simp only [hhalt, Bool.not_true, Bool.and_false, Bool.false_and, Bool.false_eq_true, if_false]
    exact .halt h.1

theorem matching_ifBranches {otherwise : Option (Plan N)} {branches : List (Plan N × Plan N)}
    (hotherwise : ∀ body ∈ otherwise, Simulates errexit scope exec run body)
    (hbranches : ∀ branch ∈ branches, Simulates errexit scope exec run branch.1 ∧
      Simulates errexit scope exec run branch.2)
    (sh : Shell W N) (result : Execution) (hready : Ready errexit scope sh.state)
    (hresult : Encodes { result, shell := sh } (.finished result.status) sh) :
    Matching (Agrees errexit scope sh) (ifBranches exec otherwise sh branches result)
      (Reference.ifBranches run otherwise sh branches) := by
  induction branches generalizing sh result with
  | nil =>
    unfold ifBranches Reference.ifBranches
    cases otherwise with
    | some body => exact (hotherwise body rfl sh hready).imp fun _ _ _ h => h.toAgrees
    | none =>
      exact .halt ⟨hresult.withStatus (le_refl 0) result.errexitIgnored, rfl, hready,
        fun _ _ _ h => absurd rfl h⟩
  | cons branch branches ih =>
    unfold ifBranches Reference.ifBranches
    obtain ⟨hcondition, hbody⟩ := hbranches branch List.mem_cons_self
    refine Matching.follow (matching_test hcondition sh hready) fun a o sh' h => ?_
    have hhalted := h.1.encodes.halted_eq h.1.ready
    cases o with
    | finished status =>
      have hstatus : a.result.status = status := h.1.encodes.status
      rw [hhalted]
      simp only [Outcome.isFinished, Bool.not_true, Bool.false_eq_true, if_false, hstatus]
      split
      · rw [h.1.encodes.shell]
        exact (hbody sh' h.1.ready).imp fun _ _ _ hb => hb.toAgrees.of_frame h.1.frame
      · rw [h.1.encodes.shell]
        have hnext : Encodes { result := a.result, shell := sh' } (.finished a.result.status) sh' := by
          obtain ⟨ha, hf, hp, hr, hj, ho, hs, hn, ht, hl⟩ := h.1.encodes
          refine ⟨rfl, rfl, rfl, hr, hj, ?_, rfl, by rw [hs]; exact hn, ht, hl⟩
          rw [hs, ← ha]
          exact ho
        refine (ih (fun b hb => hbranches b (List.mem_cons_of_mem _ hb)) sh' a.result h.1.ready
          hnext).imp fun _ _ _ hb => hb.of_frame h.1.frame
    | aborted _ | exited _ | returning _ | breaking _ | continuing _ =>
      rw [hhalted]
      exact .halt h.1

/-! ### Loops -/

/-- `loop_transfer` does to the record what `turn` does to the outcome. -/
theorem Encodes.turn (h : Encodes a o sh) :
    match o.turn with
    | .through status => o = .finished status ∧ a.transferred = (.ordinary, a)
    | .next => a.transferred.1 = .again ∧ Encodes a.transferred.2 (.finished 0) sh
    | .ended o' => Encodes a.transferred.2 o' sh ∧
        (a.transferred.1 = .unwind ∨ a.transferred.1 = .ordinary ∧ o'.isFinished = false) ∧
        (o'.Completed → o'.status ≠ 0 → o' = o) := by
  obtain ⟨hshell, hfailure, hreplaced, hredirection, hjob, houtcome, hstatus, hnonneg, htransfer,
    hlevels⟩ := h
  -- no loop to act on: the record is passed on as it is
  have hordinary : a.result.control ≠ .breakLoop → a.result.control ≠ .continueLoop →
      a.transferred = (.ordinary, a) := by
    intro hbreak hcontinue
    unfold Answer.transferred loopTransfer
    rw [if_pos ⟨hbreak, hcontinue⟩]
  -- a loop to act on: one level less
  have hacted : ∀ levels, a.result.levels = levels + 1 →
      (a.result.control = .breakLoop ∨ a.result.control = .continueLoop) →
      a.transferred = if levels ≠ 0 then (.unwind, { a with result := { a.result with levels } })
        else (if a.result.control = .continueLoop then .again else .unwind,
          { a with result := { a.result with levels := 0, control := .none } }) := by
    intro levels hl hcontrol
    unfold Answer.transferred loopTransfer
    rw [if_neg (by tauto), hl]
    cases levels <;> simp [decrement]
  unfold Answer.outcome at houtcome
  cases hcontrol : a.result.control with
  | none =>
    have hpassed := hordinary (by simp [hcontrol]) (by simp [hcontrol])
    have henc : Encodes a o sh := ⟨hshell, hfailure, hreplaced, hredirection, hjob,
      by unfold Answer.outcome; exact houtcome, hstatus, hnonneg, htransfer, hlevels⟩
    rw [hcontrol] at houtcome
    dsimp only at houtcome
    cases o with
    | finished status => exact ⟨rfl, hpassed⟩
    | aborted status =>
      rw [hpassed]
      exact ⟨henc, .inr ⟨rfl, rfl⟩, fun _ _ => rfl⟩
    | exited status =>
      rw [hpassed]
      exact ⟨henc, .inr ⟨rfl, rfl⟩, fun _ _ => rfl⟩
    | returning _ | breaking _ | continuing _ =>
      split at houtcome
      · simp at houtcome
      · split at houtcome <;> simp at houtcome
  | returnCall =>
    have hpassed := hordinary (by simp [hcontrol]) (by simp [hcontrol])
    have henc : Encodes a o sh := ⟨hshell, hfailure, hreplaced, hredirection, hjob,
      by unfold Answer.outcome; exact houtcome, hstatus, hnonneg, htransfer, hlevels⟩
    rw [hcontrol] at houtcome
    rw [← houtcome] at henc ⊢
    rw [hpassed]
    exact ⟨henc, .inr ⟨rfl, rfl⟩, fun _ _ => rfl⟩
  | breakLoop =>
    obtain ⟨levels, hl⟩ : ∃ levels, a.result.levels = levels + 1 :=
      ⟨a.result.levels - 1, by have := hlevels (.inl hcontrol); omega⟩
    have hmoved := hacted levels hl (.inl hcontrol)
    obtain ⟨hexit, hspecial⟩ := htransfer (by simp [hcontrol])
    rw [hcontrol] at houtcome
    dsimp only at houtcome
    rw [hl] at houtcome
    rw [← houtcome] at hstatus ⊢
    cases levels with
    | zero =>
      rw [hmoved]
      refine ⟨?_, .inl (by simp [hcontrol]), fun _ h => absurd rfl h⟩
      exact ⟨hshell, hfailure, hreplaced, hredirection, hjob,
        by simp [Answer.outcome, hexit, hspecial, hstatus, Outcome.status], hstatus, le_refl 0,
        by simp, by simp⟩
    | succ levels =>
      rw [hmoved]
      refine ⟨?_, .inl rfl, fun h => h.elim⟩
      exact ⟨hshell, hfailure, hreplaced, hredirection, hjob, by simp [Answer.outcome, hcontrol],
        hstatus, le_refl 0, htransfer, fun _ => Nat.succ_pos _⟩
  | continueLoop =>
    obtain ⟨levels, hl⟩ : ∃ levels, a.result.levels = levels + 1 :=
      ⟨a.result.levels - 1, by have := hlevels (.inr hcontrol); omega⟩
    have hmoved := hacted levels hl (.inr hcontrol)
    obtain ⟨hexit, hspecial⟩ := htransfer (by simp [hcontrol])
    rw [hcontrol] at houtcome
    dsimp only at houtcome
    rw [hl] at houtcome
    rw [← houtcome] at hstatus ⊢
    cases levels with
    | zero =>
      rw [hmoved]
      refine ⟨by simp [hcontrol], ?_⟩
      exact ⟨hshell, hfailure, hreplaced, hredirection, hjob,
        by simp [Answer.outcome, hexit, hspecial, hstatus, Outcome.status], hstatus, le_refl 0,
        by simp, by simp⟩
    | succ levels =>
      rw [hmoved]
      refine ⟨?_, .inl rfl, fun h => h.elim⟩
      exact ⟨hshell, hfailure, hreplaced, hredirection, hjob, by simp [Answer.outcome, hcontrol],
        hstatus, le_refl 0, htransfer, fun _ => Nat.succ_pos _⟩

theorem ignored_transferred (a : Answer W N) :
    a.transferred.2.result.errexitIgnored = a.result.errexitIgnored := by
  unfold Answer.transferred loopTransfer
  dsimp only
  split
  · rfl
  · split <;> rfl

/-- A loop ends where the reference ends it, with the outcome the reference gives. -/
theorem Agrees.ended {o o' : Outcome}
    (h : Agrees errexit scope sh a o sh') (hturn : o.turn = .ended o') :
    (a.transferred.2.failure.isSome || decide (a.transferred.1 = .unwind) ||
      halted a.transferred.2.shell a.transferred.2.result) = true ∧
      Agrees errexit scope sh a.transferred.2 o' sh' := by
  have hacted := h.encodes.turn
  rw [hturn] at hacted
  obtain ⟨henc, hends, hsame⟩ := hacted
  refine ⟨?_, henc, h.frame, h.ready, fun herrexit hignored hcompleted hstatus => ?_⟩
  · have hhalted := henc.halted_eq h.ready
    rw [Bool.or_right_comm, hhalted]
    rcases hends with hunwind | ⟨-, hfinished⟩
    · simp [hunwind]
    · simp [hfinished]
  · rw [ignored_transferred]
    have hsame' := hsame hcompleted hstatus
    rw [hsame'] at hcompleted hstatus
    exact h.exempt herrexit hignored hcompleted hstatus

/-- A loop goes on where the reference does. -/
theorem Agrees.goes_on (h : Agrees errexit scope sh a o sh') :
    (∀ status, o.turn = .through status →
      a.transferred = (.ordinary, a) ∧ o = .finished status ∧
        (a.failure.isSome || decide (Transfer.ordinary = .unwind) ||
          halted a.shell a.result) = false) ∧
    (o.turn = .next →
      a.transferred.1 = .again ∧ Encodes a.transferred.2 (.finished 0) sh' ∧
        (a.transferred.2.failure.isSome || decide (Transfer.again = .unwind) ||
          halted a.transferred.2.shell a.transferred.2.result) = false) := by
  have hacted := h.encodes.turn
  refine ⟨fun status hturn => ?_, fun hturn => ?_⟩
  · rw [hturn] at hacted
    have henc := h.encodes
    rw [hacted.1] at henc
    exact ⟨hacted.2, hacted.1, by rw [Bool.or_right_comm, henc.halted_eq h.ready]; rfl⟩
  · rw [hturn] at hacted
    exact ⟨hacted.1, hacted.2, by rw [Bool.or_right_comm, hacted.2.halted_eq h.ready]; rfl⟩

/-- What a loop remembers of its last body: a failure that was let pass is marked. -/
def Remembered (errexit : Bool) (sh : Shell W N) (last : ℤ) (lastIgnored : Bool) : Prop :=
  0 ≤ last ∧ (errexit = true → sh.state.info.errexitIgnored = 0 → last ≠ 0 → lastIgnored = true)

theorem Remembered.of_frame {last : ℤ} {lastIgnored : Bool}
    (h : Remembered errexit sh last lastIgnored) (hframe : sh'.frame = sh.frame) :
    Remembered errexit sh' last lastIgnored := by
  have hignored : sh'.state.info.errexitIgnored = sh.state.info.errexitIgnored :=
    congrArg (fun f => f.depths.errexitIgnored) hframe
  unfold Remembered
  rw [hignored]
  exact h

theorem Remembered.zero (sh : Shell W N) (lastIgnored : Bool) :
    Remembered errexit sh 0 lastIgnored := ⟨le_refl 0, fun _ _ h => absurd rfl h⟩

theorem Agrees.remembered {status : ℤ}
    (h : Agrees errexit scope sh a (.finished status) sh') :
    Remembered errexit sh status a.result.errexitIgnored :=
  ⟨h.encodes.nonneg, fun herrexit hignored hstatus => h.exempt herrexit hignored trivial hstatus⟩

theorem matching_loopClause {condition body : Plan N}
    (hcondition : Simulates errexit scope exec run condition)
    (hbody : Simulates errexit scope exec run body) (isWhile : Bool) (fuel : ℕ) (last : ℤ)
    (lastIgnored : Bool) (sh : Shell W N) (hready : Ready errexit scope sh.state)
    (hlast : Remembered errexit sh last lastIgnored) :
    Matching (Agrees errexit scope sh)
      (loopClause exec isWhile condition body fuel last lastIgnored sh)
      (Reference.loop run isWhile condition body fuel last sh) := by
  induction fuel generalizing last lastIgnored sh with
  | zero => exact Option.Rel.none
  | succ fuel ih =>
    unfold loopClause Reference.loop
    refine Matching.follow (matching_test hcondition sh hready) fun a o sh' h => ?_
    dsimp only
    cases hturn : o.turn with
    | ended o' =>
      obtain ⟨hends, hagrees⟩ := h.1.ended hturn
      rw [if_pos hends]
      exact .halt hagrees
    | next =>
      obtain ⟨hagain, henc, hgoes⟩ := h.1.goes_on.2 hturn
      rw [hagain, hgoes, if_neg (by simp), if_pos rfl, henc.shell]
      exact (ih last lastIgnored sh' h.1.ready (hlast.of_frame h.1.frame)).imp fun _ _ _ hb =>
        hb.of_frame h.1.frame
    | through status =>
      obtain ⟨hmoved, hfinished, hgoes⟩ := h.1.goes_on.1 status hturn
      have henc : Encodes a (.finished status) sh' := hfinished ▸ h.1.encodes
      have hstatus : a.result.status = status := henc.status
      rw [hmoved, hgoes, if_neg (by simp), if_neg (by simp), hstatus, henc.shell]
      dsimp only
      have hsame : ((status = 0) ≠ (isWhile = true)) ↔
          (decide (status = 0) != isWhile) = true := by
        cases isWhile <;> simp
      by_cases hstop : (decide (status = 0) != isWhile) = true
      · rw [if_pos (hsame.mpr hstop), if_pos hstop]
        refine .halt ⟨?_, h.1.frame, h.1.ready, fun herrexit hignored _ hnonzero =>
          hlast.2 herrexit hignored hnonzero⟩
        have := henc.withStatus hlast.1 lastIgnored
        rw [← henc.shell]
        rw [← henc.shell] at this
        exact this
      · rw [if_neg (mt hsame.mp hstop), if_neg hstop]
        refine Matching.follow (hbody sh' h.1.ready) fun b o₂ sh₂ hb => ?_
        have hb' := hb.toAgrees.of_frame h.1.frame
        cases hturn₂ : o₂.turn with
        | ended o' =>
          obtain ⟨hends, hagrees⟩ := hb'.ended hturn₂
          rw [if_pos hends]
          exact .halt hagrees
        | next =>
          obtain ⟨hagain, henc₂, hgoes₂⟩ := hb'.goes_on.2 hturn₂
          rw [hagain, hgoes₂, if_neg (by simp), henc₂.shell, henc₂.status]
          exact (ih 0 _ sh₂ hb'.ready (.zero _ _)).imp fun _ _ _ hc => hc.of_frame hb'.frame
        | through status₂ =>
          obtain ⟨hmoved₂, hfinished₂, hgoes₂⟩ := hb'.goes_on.1 status₂ hturn₂
          rw [hfinished₂] at hb'
          rw [hmoved₂, hgoes₂, if_neg (by simp), hb'.encodes.shell, hb'.encodes.status]
          exact (ih status₂ _ sh₂ hb'.ready (hb'.remembered.of_frame hb'.frame)).imp
            fun _ _ _ hc => hc.of_frame hb'.frame

/-- A loop as a whole, seen from the frame outside. -/
theorem matching_looped {x : Shell W N → Option (Answer W N)}
    {y : Shell W N → Option (Report W N)} (sh : Shell W N)
    (h : Matching (Agrees errexit scope (sh.enter sh.frame.looped)) (x (sh.enter sh.frame.looped))
      (y (sh.enter sh.frame.looped))) :
    Matching (Agrees errexit scope sh)
      (x (sh.setLoopDepth (sh.context.loopDepth + 1)) >>= fun a =>
        some { a with shell := a.shell.setLoopDepth sh.context.loopDepth })
      (inside Frame.looped y sh) := by
  refine Matching.inside h fun a o sh' ha => ?_
  have hshell : a.shell.setLoopDepth sh.context.loopDepth = a.shell.enter sh.frame := by
    apply leave_looped
    rw [ha.encodes.shell]
    exact ha.frame
  rw [hshell]
  exact ⟨ha.encodes.enter sh.frame, rfl, ha.ready.enter _, ha.exempt⟩

theorem matching_whileClause {condition body : Plan N}
    (hcondition : Simulates errexit scope exec run condition)
    (hbody : Simulates errexit scope exec run body) (isWhile : Bool) (fuel : ℕ) (sh : Shell W N)
    (hready : Ready errexit scope sh.state) :
    Matching (Agrees errexit scope sh) (whileClause exec fuel isWhile condition body sh)
      (inside Frame.looped (Reference.loop run isWhile condition body fuel 0) sh) := by
  unfold whileClause
  exact matching_looped sh (matching_loopClause hcondition hbody isWhile fuel 0 false _
    (hready.enter _) (.zero _ _))

theorem ready_assignLoopVariable (hready : Ready errexit scope sh.state)
    {name : Bytes} (hname : name ∈ scope.names) (word : Bytes) :
    (assignLoopVariable sh name word).1 = .ok ∧
      Ready errexit scope (assignLoopVariable sh name word).2.state := by
  obtain ⟨hset, hkept⟩ := (hready.writable name hname).setVariable word
  have hmeta := State.sameMeta_setVariable sh.state name word
  have hready₁ : Ready errexit scope (sh.state.setVariable name word).2 := by
    refine ⟨?_, ?_, fun x hx => hkept x (hready.writable x hx),
      (State.functions_setVariable _ _ _).symm ▸ hready.functions⟩
    · exact (congrArg (fun i : Info => hasBit i.options Opt.noexec) hmeta.2).trans hready.noexec
    · exact (congrArg (fun i : Info => hasBit i.options Opt.errexit) hmeta.2).trans hready.errexit
  unfold assignLoopVariable
  rcases hs : sh.state.setVariable name word with ⟨result, s⟩
  rw [hs] at hset hready₁
  dsimp only at hset hready₁
  subst hset
  dsimp only
  split
  · obtain ⟨hupdate, hkept₂⟩ := State.writable_updateAttributes (hready₁.writable name hname)
    have hmeta₂ := State.sameMeta_updateAttributes s name Attr.exported 0
    refine ⟨hupdate, ?_, ?_, fun x hx => hkept₂ x (hready₁.writable x hx),
      (State.functions_updateAttributes _ _ _ _).symm ▸ hready₁.functions⟩
    · exact (congrArg (fun i : Info => hasBit i.options Opt.noexec) hmeta₂.2).trans hready₁.noexec
    · exact (congrArg (fun i : Info => hasBit i.options Opt.errexit) hmeta₂.2).trans
        hready₁.errexit
  · exact ⟨rfl, hready₁⟩

theorem matching_forLoop {body : Plan N} (hbody : Simulates errexit scope exec run body)
    {name : Bytes} (hname : name ∈ scope.names) (words : List Bytes) (sh : Shell W N) (a : Answer W N)
    (last : ℤ) (sh' : Shell W N) (h : Agrees errexit scope sh a (.finished last) sh') :
    Matching (Agrees errexit scope sh) (forLoop exec name body words a)
      (Reference.forLoop run name body words last sh') := by
  induction words generalizing a last sh' with
  | nil => exact .halt h
  | cons word words ih =>
    unfold forLoop Reference.forLoop
    dsimp only
    obtain ⟨hassigned, hready⟩ := ready_assignLoopVariable h.ready hname word
    have hframe := (frame_assignLoopVariable sh' name word).trans h.frame
    rw [h.encodes.shell, if_neg (by simp [hassigned])]
    refine Matching.follow (hbody _ hready) fun b o₂ sh₂ hb => ?_
    have hb' := hb.toAgrees.of_frame hframe
    cases hturn : o₂.turn with
    | ended o' =>
      obtain ⟨hends, hagrees⟩ := hb'.ended hturn
      rw [if_pos hends]
      exact .halt hagrees
    | next =>
      obtain ⟨hagain, henc, hgoes⟩ := hb'.goes_on.2 hturn
      rw [hagain, hgoes, if_neg (by simp)]
      exact ih _ 0 sh₂ ⟨henc, hb'.frame, hb'.ready, fun _ _ _ hstatus => absurd rfl hstatus⟩
    | through status =>
      obtain ⟨hmoved, hfinished, hgoes⟩ := hb'.goes_on.1 status hturn
      rw [hmoved, hgoes, if_neg (by simp)]
      exact ih _ status sh₂ (hfinished ▸ hb')

/-- The answer a compound command starts from. -/
theorem agrees_start (hready : Ready errexit scope sh.state) :
    Agrees errexit scope sh { shell := sh } (.finished 0) sh where
  encodes := ⟨rfl, rfl, rfl, rfl, rfl, rfl, rfl, le_refl 0, by simp, by simp⟩
  frame := rfl
  ready := hready
  exempt := fun _ _ _ h => absurd rfl h

theorem ready_forWords (hquiet : Quiet env errexit scope) (words : List N) (sh : Shell W N)
    (acc : List Bytes) (hready : Ready errexit scope sh.state) :
    (∃ fields, (forWords env sh words acc).1 = .ok fields) ∧
      Ready errexit scope (forWords env sh words acc).2.state := by
  induction words generalizing sh acc with
  | nil => exact ⟨⟨acc, rfl⟩, hready⟩
  | cons word words ih =>
    obtain ⟨⟨fields, hfields⟩, hnext, -⟩ := hquiet.word word .argument sh.world sh.state hready
    unfold forWords
    have hon : ((env.prepareWord word .argument).on sh).1 = .ok fields := hfields
    simp only [hon]
    exact ih _ _ hnext

theorem matching_forClause (hquiet : Quiet env errexit scope) {name : N} {body : Plan N}
    (hname : ∀ w s, Ready errexit scope s →
      ∃ x ∈ scope.names, ((env.prepareWord name .redirection).run w s).1 = .ok [x])
    (hbody : Simulates errexit scope exec run body) (words : Option (List N)) (sh : Shell W N)
    (hready : Ready errexit scope sh.state) :
    Matching (Agrees errexit scope sh) (forClause env exec sh name words body)
      (Reference.forClause env run name words body sh) := by
  obtain ⟨x, hx, hfield⟩ := hname sh.world sh.state hready
  have hready₁ : Ready errexit scope ((env.prepareWord name .redirection).on sh).2.state :=
    (hquiet.word name .redirection sh.world sh.state hready).2.1
  have hon : ((env.prepareWord name .redirection).on sh).1 = .ok [x] := hfield
  have hframe₁ := frame_on (env.prepareWord name .redirection) sh
  have hloop : ∀ (sh₂ : Shell W N) (fields : List Bytes), Ready errexit scope sh₂.state →
      sh₂.frame = sh.frame →
      Matching (Agrees errexit scope sh)
        (forLoop exec x body fields { shell := sh₂.setLoopDepth (sh₂.context.loopDepth + 1) } >>=
          fun a => some { a with shell := a.shell.setLoopDepth sh₂.context.loopDepth })
        (inside Frame.looped (Reference.forLoop run x body fields 0) sh₂) := by
    intro sh₂ fields hready₂ hframe₂
    have hrun := matching_forLoop hbody hx fields (sh₂.enter sh₂.frame.looped) _ 0 _
      (agrees_start (hready₂.enter sh₂.frame.looped))
    exact (matching_looped (x := fun s => forLoop exec x body fields { shell := s })
      (y := Reference.forLoop run x body fields 0) sh₂ hrun).imp fun _ _ _ ha =>
        ha.of_frame hframe₂
  unfold forClause Reference.forClause
  simp only [hon, given, List.headD_cons]
  cases words with
  | none => exact hloop _ _ hready₁ hframe₁
  | some words =>
    obtain ⟨⟨fields, hfields⟩, hready₂⟩ := ready_forWords hquiet words
      ((env.prepareWord name .redirection).on sh).2 [] hready₁
    simp only [hfields]
    exact hloop _ fields hready₂ ((frame_forWords words _ []).trans hframe₁)

/-! ### `case` and redirections -/

section

variable (hquiet : Quiet env errexit scope)
include hquiet

theorem ready_casePatterns (word : Bytes) (patterns : List N)
    (sh : Shell W N) (hready : Ready errexit scope sh.state) :
    (∃ matched, (casePatterns env word sh patterns).1 = .ok matched) ∧
      Ready errexit scope (casePatterns env word sh patterns).2.state ∧
      (casePatterns env word sh patterns).2.interactive = sh.interactive := by
  induction patterns generalizing sh with
  | nil => exact ⟨⟨false, rfl⟩, hready, rfl⟩
  | cons pattern patterns ih =>
    obtain ⟨⟨fields, hfields⟩, hnext, hinteractive⟩ :=
      hquiet.word pattern .pattern sh.world sh.state hready
    have hon : ((env.prepareWord pattern .pattern).on sh).1 = .ok fields := hfields
    unfold casePatterns
    simp only [hon]
    split
    · exact ⟨⟨true, rfl⟩, hnext, hinteractive⟩
    · obtain ⟨hmatched, hready', hinteractive'⟩ :=
        ih ((env.prepareWord pattern .pattern).on sh).2 hnext
      exact ⟨hmatched, hready', hinteractive'.trans hinteractive⟩

theorem matching_caseItems (word : Bytes) {items : List (List N × Plan N × Bool)}
    (hitems : ∀ item ∈ items, Simulates errexit scope exec run item.2.1) (fallthrough : Bool)
    (sh : Shell W N) (a : Answer W N) (last : ℤ) (sh' : Shell W N)
    (h : Agrees errexit scope sh a (.finished last) sh') :
    Matching (Agrees errexit scope sh) (caseItems env exec word fallthrough items a)
      (Reference.caseItems env run word fallthrough items last sh') := by
  induction items generalizing fallthrough a last sh' with
  | nil => exact .halt h
  | cons item items ih =>
    obtain ⟨patterns, body, falls⟩ := item
    have hrest := fun fallthrough => ih (fun i hi => hitems i (List.mem_cons_of_mem _ hi)) fallthrough
    have hbody := hitems _ List.mem_cons_self
    unfold caseItems Reference.caseItems
    dsimp only
    rw [h.encodes.shell]
    -- both sides agree on whether the item is selected, and on the shell after asking
    have hasked : ∀ asked, asked = (if fallthrough then (.ok true, sh')
        else casePatterns env word sh' patterns : Except Failure Bool × Shell W N) →
        (∃ matched, asked.1 = .ok matched) ∧ Ready errexit scope asked.2.state ∧
          asked.2.interactive = sh'.interactive ∧ asked.2.frame = sh.frame := by
      rintro asked rfl
      cases fallthrough with
      | true => exact ⟨⟨true, rfl⟩, h.ready, rfl, h.frame⟩
      | false =>
        obtain ⟨hask, hready, hinteractive⟩ := ready_casePatterns hquiet word patterns sh' h.ready
        exact ⟨hask, hready, hinteractive, (frame_casePatterns word patterns sh').trans h.frame⟩
    generalize (if fallthrough then (.ok true, sh')
      else casePatterns env word sh' patterns : Except Failure Bool × Shell W N) = asked at hasked ⊢
    obtain ⟨⟨matched, hmatched⟩, hready, hinteractive, hframe⟩ := hasked asked rfl
    obtain ⟨answer, sh₁⟩ := asked
    dsimp only at hmatched hready hinteractive hframe ⊢
    subst hmatched
    have hkept : Agrees errexit scope sh { a with shell := sh₁ } (.finished last) sh₁ := by
      obtain ⟨hcontrol, hexit, hspecial⟩ := h.encodes.flags
      rw [h.encodes.shell, ← hinteractive] at hspecial
      refine ⟨⟨rfl, h.encodes.failure, h.encodes.replaced, h.encodes.redirectionFailed,
        h.encodes.jobSuspended, ?_, h.encodes.status, h.encodes.nonneg, h.encodes.transfer,
        h.encodes.levels⟩, hframe, hready, h.exempt⟩
      simp [Answer.outcome, hcontrol, hexit, hspecial, h.encodes.status, Outcome.status]
    cases matched with
    | false => exact hrest false _ last sh₁ hkept
    | true =>
      simp only [given, if_true]
      refine Matching.follow (R := Agrees errexit scope sh) ?_ fun b o₂ sh₂ hb => ?_
      · split
        · exact (hbody sh₁ hready).imp fun _ _ _ hb => hb.toAgrees.of_frame hframe
        · exact .halt hkept
      · have hhalted := hb.encodes.halted_eq hb.ready
        rw [hhalted]
        cases o₂ with
        | finished status =>
          simp only [Outcome.isFinished, Bool.not_true, Bool.false_or]
          cases falls with
          | false => exact .halt hb
          | true => exact hrest true b status sh₂ hb
        | aborted _ | exited _ | returning _ | breaking _ | continuing _ => exact .halt hb

theorem matching_caseClause {items : List (List N × Plan N × Bool)}
    (hitems : ∀ item ∈ items, Simulates errexit scope exec run item.2.1) (word : N)
    (sh : Shell W N) (hready : Ready errexit scope sh.state) :
    Matching (Agrees errexit scope sh) (caseClause env exec sh word items)
      (Reference.caseClause env run word items sh) := by
  obtain ⟨⟨fields, hfields⟩, hnext, -⟩ := hquiet.word word .redirection sh.world sh.state hready
  have hon : ((env.prepareWord word .redirection).on sh).1 = .ok fields := hfields
  unfold caseClause Reference.caseClause
  simp only [hon, given]
  exact matching_caseItems hquiet _ hitems false sh _ 0 _
    ((agrees_start hnext).of_frame (frame_on _ _))

theorem matching_redirected (tree : N)
    {body : Shell W N → Option (Answer W N)} {body' : Shell W N → Option (Report W N)}
    (hbody : ∀ sh, Ready errexit scope sh.state →
      Matching (Agrees errexit scope sh) (body sh) (body' sh))
    (sh : Shell W N) (hready : Ready errexit scope sh.state) :
    Matching (Agrees errexit scope sh) (redirectedBody env tree body sh)
      (Reference.redirected env tree body' sh) := by
  unfold redirectedBody Reference.redirected
  cases htree : env.hasRedirects tree with
  | false =>
    simp only [Bool.false_eq_true, if_false]
    have hmatch := hbody sh hready
    generalize body sh = x at hmatch ⊢
    generalize body' sh = y at hmatch ⊢
    cases hmatch with
    | none => exact Option.Rel.none
    | some ha =>
      refine Option.Rel.some ?_
      simpa [ha.encodes.failure] using ha
  | true =>
    obtain ⟨happlied, hready₁⟩ := hquiet.redirects tree sh.world sh.state hready
    have hon : ((env.redirects tree {}).on sh).1.1 = .applied := happlied
    simp only [if_true, hon]
    refine Matching.follow (hbody _ hready₁) fun a o sh' hbody => ?_
    have ha := hbody.of_frame (frame_on (env.redirects tree {}) sh)
    have hrestored := hquiet.restore tree sh'.world sh'.state
    rw [if_neg (by simp [ha.encodes.failure]), ha.encodes.shell]
    refine .halt ⟨⟨rfl, ?_, ha.encodes.replaced, ha.encodes.redirectionFailed,
      ha.encodes.jobSuspended, ?_, ha.encodes.status, ha.encodes.nonneg, ha.encodes.transfer,
      ha.encodes.levels⟩, ?_, ha.ready, ha.exempt⟩
    · simp [Query.on, hrestored, ha.encodes.failure]
    · have houtcome := ha.encodes.outcome
      unfold Answer.outcome at houtcome ⊢
      rw [ha.encodes.shell] at houtcome
      exact houtcome
    · exact (frame_query _ _).trans ha.frame

end

/-! ### Forked execution -/

theorem executePendingTraps_quiet (hquiet : Quiet env errexit scope) (fuel : ℕ)
    (result : Execution) (sh : Shell W N) :
    executePendingTraps env exec fuel result sh = some { result, shell := sh } := by
  unfold executePendingTraps
  dsimp only
  split
  · rfl
  · rename_i hidle
    have hdispatching : sh.context.dispatchingTraps = false := by
      simp only [Bool.or_eq_true, Bool.not_eq_true', not_or] at hidle
      simpa using hidle.2
    have hnone : pendingLoop env exec (fuel + 1) [] result
        { sh with context := { sh.context with dispatchingTraps := true } }
        = some (false, result, { sh with context := { sh.context with dispatchingTraps := true } }) := by
      unfold pendingLoop
      simp [Query.on, hquiet.pending]
    have hback : ({ sh with context := { sh.context with dispatchingTraps := false } } : Shell W N)
        = sh := by rw [← hdispatching]
    rw [hnone]
    simp only [Option.bind_eq_bind, Option.bind_some, Bool.false_eq_true, if_false, hback]

theorem executeExitTrap_quiet (hquiet : Quiet env errexit scope) (fuel : ℕ) (sh : Shell W N) :
    executeExitTrap env exec fuel sh = some (sh.state.info.lastStatus, sh) := by
  unfold executeExitTrap
  dsimp only
  split
  · rfl
  · simp [Query.on, hquiet.exitAction]

theorem lastStatus_setStatus (sh : Shell W N) {status : ℤ} (h : 0 ≤ status) :
    (sh.setStatus status).state.info.lastStatus = status := by
  simp [Shell.setStatus, Shell.withState, State.setStatus, not_lt.mpr h]

theorem world_setStatus (sh : Shell W N) (status : ℤ) : (sh.setStatus status).world = sh.world := rfl

theorem status_clamp (o : Outcome) (loops : ℕ) : (o.clamp loops).status = o.status := by
  cases o <;> rfl

/-- What the end of a child process makes of an answer. -/
theorem childRun_end (hquiet : Quiet env errexit scope) (fuel : ℕ)
    (h : Encodes a o sh) :
    (match a.replaced with
      | some status => some (status % 256, a.shell.world)
      | none => do
        let pending ← executePendingTraps env exec fuel a.result a.shell
        let settled := pending.shell.setStatus pending.result.status
        let (status, left) ← executeExitTrap env exec fuel settled
        some (status % 256, left.world)) = some (o.status % 256, sh.world) := by
  have hnonneg : 0 ≤ a.result.status := by
    rw [h.status]
    exact h.nonneg
  simp only [h.replaced, executePendingTraps_quiet hquiet, executeExitTrap_quiet hquiet,
    Option.bind_eq_bind, Option.bind_some]
  rw [lastStatus_setStatus _ hnonneg, world_setStatus, h.status, h.shell]

/-- A stage whose simple command, if it is one, does what its leaf says. -/
def StageSimulates (env : Env W N) (errexit : Bool) (scope : Scope (Function N))
    (exec : Shell W N → Plan N → Option (Answer W N))
    (leaf : ℕ → Bool → Shell W N → N → Option (Outcome × Shell W N))
    (run : Shell W N → Plan N → Option (Report W N)) (fuel : ℕ) (plan : Plan N) : Prop :=
  Simulates errexit scope exec run plan ∧ ∀ tree, plan = .simple tree →
    ∀ direct sh, Ready errexit scope sh.state → Option.Rel (LeafAgrees errexit scope direct sh)
      (runtimeSimple env exec fuel direct sh tree) (leaf fuel direct sh tree)

theorem ready_childShell (hquiet : Quiet env errexit scope) (jobs : Bool) (index : ℕ)
    (sh : Shell W N) (hready : Ready errexit scope sh.state) :
    (childShell env jobs index sh).1 = true ∧
      Ready errexit scope (childShell env jobs index sh).2.state := by
  unfold childShell
  cases jobs with
  | false => exact ⟨rfl, hready.child⟩
  | true => exact ⟨hquiet.jobsCreate _ _, hready.child⟩

variable {fuel : ℕ} {stages : List (Plan N)} {negated : Bool}

theorem childRun_eq (hquiet : Quiet env errexit scope)
    (hplan : StageSimulates env errexit scope exec leaf run fuel plan) (jobs : Bool) (index : ℕ)
    (sh : Shell W N) (hready : Ready errexit scope sh.state) :
    childRun env exec fuel jobs index sh plan
      = Reference.child env leaf run fuel jobs index sh plan := by
  obtain ⟨hcreated, hready'⟩ := ready_childShell hquiet jobs index sh hready
  unfold childRun Reference.child
  simp only [hcreated, Bool.not_true, Bool.false_eq_true, if_false]
  -- any plan but a simple command is run as in the parent
  have hcompound : ∀ {x : Option (Answer W N)} {y : Option (Report W N)},
      Matching (NodeAgrees errexit scope (childShell env jobs index sh).2) x y →
      (x >>= fun a => match a.replaced with
        | some status => some (status % 256, a.shell.world)
        | none => do
          let pending ← executePendingTraps env exec fuel a.result a.shell
          let settled := pending.shell.setStatus pending.result.status
          let (status, left) ← executeExitTrap env exec fuel settled
          some (status % 256, left.world))
        = y.map fun r => (r.outcome.status % 256, r.shell.world) := by
    intro x y hmatch
    cases hmatch with
    | none => rfl
    | some ha => exact childRun_end hquiet fuel ha.encodes
  cases plan with
  | simple tree =>
    have hleaf := hplan.2 tree rfl true _ hready'
    dsimp only
    generalize runtimeSimple env exec fuel true (childShell env jobs index sh).2 tree = x at hleaf ⊢
    generalize leaf fuel true (childShell env jobs index sh).2 tree = y at hleaf ⊢
    cases hleaf with
    | none => rfl
    | @some a r ha =>
      rcases ha with ⟨henc, -⟩ | ⟨-, hreplaced, hworld⟩
      · refine (childRun_end hquiet fuel henc).trans ?_
        rw [status_clamp]
        rfl
      · simp only [Option.bind_eq_bind, Option.bind_some, Option.map_some, hreplaced, hworld]
  | pipeline _ _ _ => exact hcompound (hplan.1 _ hready')
  | and _ _ => exact hcompound (hplan.1 _ hready')
  | or _ _ => exact hcompound (hplan.1 _ hready')
  | list _ => exact hcompound (hplan.1 _ hready')
  | subshell _ _ => exact hcompound (hplan.1 _ hready')
  | brace _ _ => exact hcompound (hplan.1 _ hready')
  | ifClause _ _ _ => exact hcompound (hplan.1 _ hready')
  | forClause _ _ _ _ => exact hcompound (hplan.1 _ hready')
  | loop _ _ _ _ => exact hcompound (hplan.1 _ hready')
  | caseClause _ _ _ => exact hcompound (hplan.1 _ hready')
  | function _ _ _ => exact hcompound (hplan.1 _ hready')

theorem childrenRun_eq (hquiet : Quiet env errexit scope)
    (hstages : ∀ plan ∈ stages, StageSimulates env errexit scope exec leaf run fuel plan)
    (jobs : Bool) (sh : Shell W N) (hready : Ready errexit scope sh.state) (index : ℕ) :
    childrenRun env exec fuel jobs (fun _ => .exited) sh index stages
      = Reference.children env leaf run fuel jobs sh index stages := by
  induction stages generalizing index with
  | nil => rfl
  | cons plan plans ih =>
    unfold childrenRun Reference.children
    rw [ih (fun p hp => hstages p (List.mem_cons_of_mem _ hp))]
    simp only [childRun_eq hquiet (hstages plan List.mem_cons_self) jobs index sh hready]

theorem children_nonneg {jobs : Bool} {index : ℕ}
    {statuses : List ℤ} {worlds : List W}
    (h : Reference.children env leaf run fuel jobs sh index stages = some (statuses, worlds)) :
    ∀ status ∈ statuses, 0 ≤ status := by
  induction stages generalizing index statuses worlds with
  | nil =>
    simp only [Reference.children, Option.some.injEq, Prod.mk.injEq] at h
    simp [← h.1]
  | cons plan plans ih =>
    simp only [Reference.children, Option.bind_eq_bind, Option.bind_eq_some_iff, Option.some.injEq,
      Prod.mk.injEq] at h
    obtain ⟨⟨status, world⟩, hchild, ⟨rest, worlds'⟩, hrest, rfl, rfl⟩ := h
    intro s hs
    rcases List.mem_cons.mp hs with rfl | hs
    · unfold Reference.child at hchild
      dsimp only at hchild
      split at hchild
      · obtain ⟨r, -, hr⟩ := Option.map_eq_some_iff.mp hchild
        rw [← (Prod.mk.inj hr).1]
        exact Int.emod_nonneg _ (by norm_num)
      · obtain ⟨r, -, hr⟩ := Option.map_eq_some_iff.mp hchild
        rw [← (Prod.mk.inj hr).1]
        exact Int.emod_nonneg _ (by norm_num)
    · exact ih hrest s hs

theorem pipelineStatus_nonneg (pipefail negated : Bool) {statuses : List ℤ}
    (h : ∀ status ∈ statuses, 0 ≤ status) : 0 ≤ pipelineStatus pipefail negated statuses := by
  have hlast : 0 ≤ statuses.getLastD 0 := by
    cases hs : statuses.getLast? with
    | none => simp [List.getLastD_eq_getLast?, hs]
    | some s =>
      rw [List.getLastD_eq_getLast?, hs]
      exact h s (List.mem_of_getLast? hs)
  have hfold : ∀ (l : List ℤ) (init : ℤ), (∀ s ∈ l, 0 ≤ s) → 0 ≤ init →
      0 ≤ l.foldl (fun status s => if s ≠ 0 then s else status) init := by
    intro l
    induction l with
    | nil => exact fun init _ hinit => hinit
    | cons s l ih =>
      intro init hl hinit
      refine ih _ (fun x hx => hl x (List.mem_cons_of_mem _ hx)) ?_
      dsimp only
      split
      · exact hl s List.mem_cons_self
      · exact hinit
  have hbit : ∀ (p : Prop) [Decidable p], (0 : ℤ) ≤ if p then 1 else 0 := by
    intro p _
    split <;> norm_num
  unfold pipelineStatus
  dsimp only
  split
  · exact hbit _
  · split
    · exact hfold _ _ h hlast
    · exact hlast

/-- What comes back from waiting for a fork: a status and nothing else. -/
structure ForkAgrees (errexit : Bool) (scope : Scope (Function N)) (sh : Shell W N) (a : Answer W N)
    (o : Outcome) (sh' : Shell W N) : Prop where
  encodes : Encodes a o sh'
  frame : sh'.frame = sh.frame
  ready : Ready errexit scope sh'.state
  finished : o = .finished o.status
  unmarked : a.result.errexitIgnored = false

theorem ForkAgrees.of_frame {sh sh₁ : Shell W N}
    (h : ForkAgrees errexit scope sh₁ a o sh') (hframe : sh₁.frame = sh.frame) :
    ForkAgrees errexit scope sh a o sh' := { h with frame := h.frame.trans hframe }

theorem matching_collect (hquiet : Quiet env errexit scope)
    (hstages : ∀ plan ∈ stages, StageSimulates env errexit scope exec leaf run fuel plan)
    (jobs pipefail negated : Bool) (forked sh : Shell W N) (category : Category)
    (hforked : Ready errexit scope forked.state) (hready : Ready errexit scope sh.state) :
    Matching (ForkAgrees errexit scope sh)
      (collect env exec fuel jobs pipefail negated stages (fun _ => .exited) forked sh { category })
      (Reference.children env leaf run fuel jobs forked 0 stages >>= fun r =>
        halt (.finished (pipelineStatus pipefail negated r.1))
          { sh with world := env.join sh.world r.2 }) := by
  unfold collect
  rw [childrenRun_eq hquiet hstages jobs forked hforked 0]
  cases hchildren : Reference.children env leaf run fuel jobs forked 0 stages with
  | none => exact Option.Rel.none
  | some r =>
    refine .halt ⟨?_, rfl, hready, rfl, rfl⟩
    exact ⟨rfl, rfl, rfl, rfl, rfl, rfl, rfl,
      pipelineStatus_nonneg _ _ (children_nonneg hchildren), by simp, by simp⟩

theorem stageShell_eq (negated : Bool) (sh : Shell W N) :
    stageShell negated sh = if negated then sh.enter sh.frame.tested else sh := by
  cases negated <;> rfl

theorem ready_stageShell (sh : Shell W N) (hready : Ready errexit scope sh.state) (negated : Bool) :
    Ready errexit scope (stageShell negated sh).state := by
  cases negated
  · exact hready
  · exact hready.congr rfl rfl rfl

/-- Both ways of forking the stages of one command. -/
theorem matching_contextJob (hquiet : Quiet env errexit scope)
        (hplan : (∃ first rest, plan = .pipeline negated first rest ∧ stages = first :: rest) ∨
      (∃ tree body, plan = .brace tree body) ∧ negated = false ∧ stages = [plan])
    (hstages : ∀ plan ∈ stages, StageSimulates env errexit scope exec leaf run fuel plan)
    (sh : Shell W N) (hready : Ready errexit scope sh.state) (hjobs : sh.context.jobs = true) :
    Matching (ForkAgrees errexit scope sh) (contextJob env exec fuel plan false sh)
      (Reference.forkStages env leaf run fuel negated stages sh) := by
  obtain ⟨pid, hpid⟩ := hquiet.fork stages.length false sh.world sh.state
  have hfork : (Query.on (env.fork stages.length false) sh).1 = .ok pid := hpid
  have hwait := fun sh' : Shell W N => hquiet.foreground stages.length sh'.world sh'.state
  have hwait' : ∀ sh' : Shell W N, (Query.on (env.foreground stages.length) sh').1
      = .completed fun _ => .exited := hwait
  have hcollect := fun category => matching_collect hquiet hstages true
    (sh.state.option Opt.pipefail) negated
    (stageShell negated (Query.on (env.fork stages.length false) sh).2)
    (Query.on (env.foreground stages.length) (Query.on (env.fork stages.length false) sh).2).2
    category (ready_stageShell (Query.on (env.fork stages.length false) sh).2 hready negated) hready
  have hjob : ∀ category, contextJob env exec fuel plan false sh
      = collect env exec fuel true (sh.state.option Opt.pipefail) negated stages (fun _ => .exited)
        (stageShell negated (Query.on (env.fork stages.length false) sh).2)
        (Query.on (env.foreground stages.length) (Query.on (env.fork stages.length false) sh).2).2
        { category } → Matching (ForkAgrees errexit scope sh) (contextJob env exec fuel plan false sh)
      (Reference.forkStages env leaf run fuel negated stages sh) := by
    intro category hsame
    rw [hsame]
    unfold Reference.forkStages
    simp only [hjobs, if_true, ← stageShell_eq]
    exact (hcollect category).imp fun _ _ _ ha => ha.of_frame rfl
  rcases hplan with ⟨first, rest, rfl, rfl⟩ | ⟨⟨tree, body, rfl⟩, rfl, rfl⟩
  · apply hjob .pipeline
    unfold contextJob
    simp only [hfork, hwait', Bool.false_eq_true, if_false]
  · apply hjob .external
    unfold contextJob
    simp only [hfork, hwait', Bool.false_eq_true, if_false]

theorem matching_stages (hquiet : Quiet env errexit scope)
    {first second : Plan N} {rest : List (Plan N)}
    (hstages : ∀ plan ∈ first :: second :: rest,
      StageSimulates env errexit scope exec leaf run fuel plan)
    (sh : Shell W N) (hready : Ready errexit scope sh.state) :
    Matching (ForkAgrees errexit scope sh)
      (contextPipeline env exec fuel negated first (second :: rest) false sh)
      (Reference.forkStages env leaf run fuel negated (first :: second :: rest) sh) := by
  unfold contextPipeline
  cases hjobs : sh.context.jobs with
  | true =>
    simp only [if_true]
    exact matching_contextJob hquiet (.inl ⟨first, second :: rest, rfl, rfl⟩) hstages sh hready hjobs
  | false =>
    obtain ⟨pid, hpid⟩ := hquiet.fork (first :: second :: rest).length false sh.world sh.state
    have hfork : (Query.on (env.fork (first :: second :: rest).length false) sh).1 = .ok pid := hpid
    have hwait : ∀ sh' : Shell W N,
        (Query.on (env.stageWait (first :: second :: rest).length) sh').1
          = .ok fun _ => .exited := fun sh' => hquiet.stageWait _ sh'.world sh'.state
    unfold Reference.forkStages
    simp only [hjobs, hfork, hwait, Bool.false_eq_true, if_false, ← stageShell_eq]
    have hcollect := matching_collect hquiet hstages false (sh.state.option Opt.pipefail) negated
      (stageShell negated (Query.on (env.fork (first :: second :: rest).length false) sh).2)
      (Query.on (env.stageWait (first :: second :: rest).length)
        (Query.on (env.fork (first :: second :: rest).length false) sh).2).2 .pipeline
      (ready_stageShell (Query.on (env.fork (first :: second :: rest).length false) sh).2 hready
        negated) hready
    exact hcollect.imp fun _ _ _ ha => ha.of_frame rfl

/-- The status of a single stage is that of the fork. -/
theorem pipelineStatus_single (pipefail : Bool) (status : ℤ) :
    pipelineStatus pipefail false [status] = status := by
  unfold pipelineStatus
  cases pipefail <;> simp

theorem matching_subshell (hquiet : Quiet env errexit scope) {tree : N} {body : Plan N}
    (hbody : Simulates errexit scope exec run (.brace tree body)) (sh : Shell W N)
    (hready : Ready errexit scope sh.state) :
    Matching (ForkAgrees errexit scope sh) (contextFork env exec fuel (.brace tree body) false sh)
      (Reference.forkStages env leaf run fuel false [.brace tree body] sh) := by
  have hstages : ∀ plan ∈ [Plan.brace tree body],
      StageSimulates env errexit scope exec leaf run fuel plan := by
    intro plan hplan
    rw [List.mem_singleton.mp hplan]
    exact ⟨hbody, fun tree h => by cases h⟩
  unfold contextFork
  cases hjobs : sh.context.jobs with
  | true =>
    simp only [if_true]
    exact matching_contextJob hquiet (.inr ⟨⟨tree, body, rfl⟩, rfl, rfl⟩) hstages sh hready hjobs
  | false =>
    obtain ⟨pid, hpid⟩ := hquiet.fork 1 false sh.world sh.state
    have hfork : (Query.on (env.fork 1 false) sh).1 = .ok pid := hpid
    have hwait : ∀ sh' : Shell W N, (Query.on (env.stageWait 1) sh').1 = .ok fun _ => .exited :=
      fun sh' => hquiet.stageWait _ sh'.world sh'.state
    unfold Reference.forkStages
    simp only [hjobs, hfork, hwait, Bool.false_eq_true, if_false, List.length_singleton]
    have hcollect := matching_collect hquiet hstages false false false
      (Query.on (env.fork 1 false) sh).2
      (Query.on (env.stageWait 1) (Query.on (env.fork 1 false) sh).2).2 .empty hready hready
    have hforked := hcollect.imp fun _ _ _ ha => (ha.of_frame rfl : ForkAgrees errexit scope sh _ _ _)
    -- with one stage `pipefail` makes no difference
    cases hchildren : Reference.children env leaf run fuel false
      (Query.on (env.fork 1 false) sh).2 0 [.brace tree body] with
    | none =>
      rw [hchildren] at hforked
      exact hforked
    | some r =>
      obtain ⟨statuses, worlds⟩ := r
      obtain ⟨status, rfl⟩ : ∃ status, statuses = [status] := by
        simp only [Reference.children, Option.bind_eq_bind, Option.bind_eq_some_iff,
          Option.some.injEq, Prod.mk.injEq] at hchildren
        obtain ⟨⟨status, world⟩, -, ⟨_, _⟩, ⟨rfl, rfl⟩, rfl, -⟩ := hchildren
        exact ⟨status, rfl⟩
      rw [hchildren] at hforked
      simp only [Option.bind_eq_bind, Option.bind_some, pipelineStatus_single] at hforked ⊢
      exact hforked

/-! ### Lists and pipelines -/

/-- Starting a command in the background succeeds at once. -/
theorem matching_background (hquiet : Quiet env errexit scope) (fuel : ℕ) (plan : Plan N)
    (sh : Shell W N) (hready : Ready errexit scope sh.state) :
    Matching (Agrees errexit scope sh) (contextFork env exec fuel plan true sh)
      (halt (.finished 0) (Reference.background env plan sh)) := by
  have hstarted : ∀ (sh' : Shell W N) (category : Category), Ready errexit scope sh'.state →
      sh'.frame = sh.frame →
      Agrees errexit scope sh { result := { category }, shell := sh' } (.finished 0) sh' := by
    intro sh' category hready' hframe
    exact ⟨⟨rfl, rfl, rfl, rfl, rfl, rfl, rfl, le_refl 0, by simp, by simp⟩, hframe, hready',
      fun _ _ _ h => absurd rfl h⟩
  have hforked : ∀ n, ∃ pid, (Query.on (env.fork n true) sh).1 = .ok pid := fun n =>
    hquiet.fork n true sh.world sh.state
  have hback : ∀ n pid, Ready errexit scope
      ((Query.on (env.fork n true) sh).2.withState
        ((Query.on (env.fork n true) sh).2.state.setBackground pid).2).state ∧
      ((Query.on (env.fork n true) sh).2.withState
        ((Query.on (env.fork n true) sh).2.state.setBackground pid).2).frame = sh.frame := by
    intro n pid
    exact ⟨hready.setBackground pid, frame_withState (State.depths_setBackground _ _)⟩
  have hset : ∀ n pid, Ready errexit scope
      (((Query.on (env.fork n true) sh).2.withState
        ((Query.on (env.fork n true) sh).2.state.setBackground pid).2).setStatus 0).state ∧
      (((Query.on (env.fork n true) sh).2.withState
        ((Query.on (env.fork n true) sh).2.state.setBackground pid).2).setStatus 0).frame
          = sh.frame := by
    intro n pid
    exact ⟨(hback n pid).1.setStatus 0, (frame_setStatus _ _).trans (hback n pid).2⟩
  unfold contextFork Reference.background
  cases hjobs : sh.context.jobs with
  | true =>
    simp only [if_true, context_query, hjobs]
    unfold contextJob
    cases plan with
    | pipeline negated first rest =>
      obtain ⟨pid, hpid⟩ := hforked (first :: rest).length
      have hpid' : (Query.on (env.fork (rest.length + 1) true) sh).1 = .ok pid := hpid
      simp only [hpid, hpid', given, if_true]
      exact .halt (hstarted _ _ (hback _ pid).1 (hback _ pid).2)
    | _ =>
      obtain ⟨pid, hpid⟩ := hforked 1
      simp only [List.length_singleton, hpid, given, if_true]
      exact .halt (hstarted _ _ (hback _ pid).1 (hback _ pid).2)
  | false =>
    simp only [Bool.false_eq_true, if_false, context_query, hjobs]
    have hone : ∃ pid, (Query.on (env.fork 1 true) sh).1 = .ok pid := hforked 1
    cases plan with
    | pipeline negated first rest =>
      cases rest with
      | nil =>
        obtain ⟨pid, hpid⟩ := hone
        simp only [List.length_nil, zero_add, hpid, given, if_true]
        exact .halt (hstarted _ _ (hset _ pid).1 (hset _ pid).2)
      | cons second rest =>
        obtain ⟨pid, hpid⟩ := hforked (first :: second :: rest).length
        have hpid' : (Query.on (env.fork ((second :: rest).length + 1) true) sh).1 = .ok pid := hpid
        simp only [contextPipeline, hjobs, Bool.false_eq_true, if_false, hpid, hpid', given, if_true]
        exact .halt (hstarted _ _ (hset _ pid).1 (hset _ pid).2)
    | _ =>
      obtain ⟨pid, hpid⟩ := hone
      simp only [hpid, given, if_true]
      exact .halt (hstarted _ _ (hset _ pid).1 (hset _ pid).2)

theorem matching_listItems (hquiet : Quiet env errexit scope) (fuel : ℕ)
    {items : List (Bool × Plan N)}
    (hitems : ∀ item ∈ items, Simulates errexit scope exec run item.2) (sh : Shell W N)
    (a : Answer W N) (last : ℤ) (sh' : Shell W N)
    (h : Agrees errexit scope sh a (.finished last) sh') :
    Matching (Agrees errexit scope sh) (listItems env exec fuel items a)
      (Reference.listItems env run items last sh') := by
  induction items generalizing a last sh' with
  | nil => exact .halt h
  | cons item items ih =>
    obtain ⟨asynchronous, plan⟩ := item
    unfold listItems Reference.listItems
    dsimp only
    refine Matching.follow (R := Agrees errexit scope sh) ?_ fun b o₂ sh₂ hb => ?_
    · rw [h.encodes.shell]
      cases asynchronous with
      | true =>
        exact (matching_background hquiet fuel plan sh' h.ready).imp fun _ _ _ ha =>
          ha.of_frame h.frame
      | false =>
        exact (hitems _ List.mem_cons_self sh' h.ready).imp fun _ _ _ ha =>
          ha.toAgrees.of_frame h.frame
    · have hhalted := hb.encodes.halted_eq hb.ready
      rw [hhalted]
      cases o₂ with
      | finished status =>
        have hreaped : (Query.on env.reap sh₂).1 = none := hquiet.reap sh₂.world sh₂.state
        simp only [Outcome.isFinished, Bool.not_true, Bool.false_eq_true, if_false,
          hb.encodes.shell, hreaped]
        refine ih (fun i hi => hitems i (List.mem_cons_of_mem _ hi)) _ status _ ?_
        refine ⟨⟨rfl, hb.encodes.failure, hb.encodes.replaced, hb.encodes.redirectionFailed,
          hb.encodes.jobSuspended, ?_, hb.encodes.status, hb.encodes.nonneg, hb.encodes.transfer,
          hb.encodes.levels⟩, (frame_query _ _).trans hb.frame, hb.ready, hb.exempt⟩
        have houtcome := hb.encodes.outcome
        unfold Answer.outcome at houtcome ⊢
        rw [hb.encodes.shell] at houtcome
        exact houtcome
      | aborted _ | exited _ | returning _ | breaking _ | continuing _ => exact .halt hb

/-- What holds between the command itself and the end every node shares: a failure is
marked as exempt unless `errexit` is about to look at it. -/
structure BodyAgrees (errexit : Bool) (scope : Scope (Function N)) (plan : Plan N) (sh : Shell W N)
    (a : Answer W N) (o : Outcome) (sh' : Shell W N) : Prop where
  encodes : Encodes a o sh'
  frame : sh'.frame = sh.frame
  ready : Ready errexit scope sh'.state
  exempt : Reference.observed plan = false → errexit = true →
    sh.state.info.errexitIgnored = 0 → o.Completed → o.status ≠ 0 → a.result.errexitIgnored = true
  unmarked : Reference.observed plan = true →
    (∃ tree, plan = .simple tree) ∨ a.result.errexitIgnored = false

theorem Agrees.body (h : Agrees errexit scope sh a o sh')
    (hplan : Reference.observed plan = false) : BodyAgrees errexit scope plan sh a o sh' :=
  ⟨h.encodes, h.frame, h.ready, fun _ => h.exempt, fun hobserved => by simp [hplan] at hobserved⟩

theorem ForkAgrees.body (h : ForkAgrees errexit scope sh a o sh')
    (hplan : Reference.observed plan = true) : BodyAgrees errexit scope plan sh a o sh' :=
  ⟨h.encodes, h.frame, h.ready, fun hobserved => by simp [hplan] at hobserved,
    fun _ => .inr h.unmarked⟩

/-- `!` inverts the record as it inverts the outcome. -/
theorem Encodes.inverted (h : Encodes a o sh) :
    Encodes a.inverted o.negate sh := by
  have houtcome := h.outcome
  unfold Answer.outcome at houtcome
  unfold Answer.inverted
  have hbit : ∀ status : ℤ, (0 : ℤ) ≤ if status = 0 then 1 else 0 := by
    intro status
    split <;> norm_num
  cases hcontrol : a.result.control with
  | none =>
    rw [hcontrol] at houtcome
    dsimp only at houtcome
    cases hexit : a.result.exitRequested with
    | true =>
      rw [if_pos hexit] at houtcome
      rw [if_neg (by simp)]
      rw [← houtcome] at h ⊢
      exact h
    | false =>
      rw [if_neg (by simp [hexit])] at houtcome
      rw [if_pos (by simp [h.failure])]
      refine ⟨h.shell, h.failure, h.replaced, h.redirectionFailed, h.jobSuspended, ?_, ?_, ?_,
        h.transfer, h.levels⟩
      all_goals
        split at houtcome
        · rename_i hspecial
          simp [← houtcome, Answer.outcome, Outcome.negate, Outcome.status, hcontrol, hexit,
            hspecial, hbit]
        · rename_i hspecial
          simp [← houtcome, Answer.outcome, Outcome.negate, Outcome.status, hcontrol, hexit,
            hspecial, hbit]
  | breakLoop | continueLoop | returnCall =>
    rw [if_neg (by simp)]
    rw [hcontrol] at houtcome
    rw [← houtcome] at h ⊢
    exact h

/-- The mark of an exempt command is no part of the outcome. -/
theorem Encodes.marked (h : Encodes a o sh)
    (ignored : Bool) :
    Encodes { a with result := { a.result with errexitIgnored := ignored } } o sh :=
  ⟨h.shell, h.failure, h.replaced, h.redirectionFailed, h.jobSuspended, h.outcome, h.status,
    h.nonneg, h.transfer, h.levels⟩

/-- The frame of what a pipeline runs. -/
theorem enter_pipeline (negated : Bool) (sh : Shell W N) :
    stageShell negated sh = sh.enter ((if negated then Frame.tested else id) sh.frame) := by
  cases negated <;> rfl

/-- Coming back from the frame of a pipeline. -/
theorem leave_pipeline (negated : Bool) (sh sh' : Shell W N)
    (h : sh'.frame = (stageShell negated sh).frame) :
    sh'.setErrexitIgnored sh.state.info.errexitIgnored = sh'.enter sh.frame := by
  cases negated with
  | true => exact leave_tested h
  | false =>
    have hframe : sh'.frame = sh.frame := h
    have hignored : sh'.state.info.errexitIgnored = sh.state.info.errexitIgnored :=
      congrArg (fun f => f.depths.errexitIgnored) hframe
    rw [← hframe, ← hignored]
    rfl

/-- A pipeline of one command. -/
theorem matching_single {first : Plan N}
    (hfirst : Simulates errexit scope exec run first) (fuel : ℕ) (sh : Shell W N)
    (hready : Ready errexit scope sh.state) :
    Matching (BodyAgrees errexit scope (.pipeline negated first []) sh)
      (pipelineNode env exec fuel negated first [] sh)
      (Reference.pipeline env leaf run fuel negated first [] sh) := by
  have hobserved : Reference.observed (.pipeline negated first []) = false := by
    cases negated <;> rfl
  have hmatch := hfirst _ (ready_stageShell sh hready negated)
  unfold pipelineNode Reference.pipeline contextPipeline Execute.inside
  dsimp only
  rw [← enter_pipeline]
  generalize exec (stageShell negated sh) first = x at hmatch ⊢
  generalize run (stageShell negated sh) first = y at hmatch ⊢
  cases hmatch with
  | none => exact Option.Rel.none
  | @some a r ha =>
    have hleave := leave_pipeline negated sh r.shell ha.frame
    cases negated with
    | false =>
      have henc := ha.encodes.enter sh.frame
      rw [ha.encodes.shell] at henc
      simp only [Option.bind_eq_bind, Option.bind_some, Bool.false_eq_true, if_false,
        ha.encodes.shell, hleave]
      exact Option.Rel.some (Agrees.body ⟨henc, rfl, ha.ready.enter _, ha.exempt⟩ hobserved)
    | true =>
      have hinverted := ha.encodes.inverted
      have henc := (hinverted.enter sh.frame).marked true
      rw [hinverted.shell] at henc
      simp only [Option.bind_eq_bind, Option.bind_some, if_true, hinverted.shell, hleave]
      exact Option.Rel.some (Agrees.body ⟨henc, rfl, ha.ready.enter _, fun _ _ _ _ => rfl⟩ hobserved)

theorem matching_pipelineNode (hquiet : Quiet env errexit scope)
    {first : Plan N} {rest : List (Plan N)}
    (hstages : ∀ plan ∈ first :: rest, StageSimulates env errexit scope exec leaf run fuel plan)
    (sh : Shell W N) (hready : Ready errexit scope sh.state) :
    Matching (BodyAgrees errexit scope (.pipeline negated first rest) sh)
      (pipelineNode env exec fuel negated first rest sh)
      (Reference.pipeline env leaf run fuel negated first rest sh) := by
  cases rest with
  | nil => exact matching_single (hstages first List.mem_cons_self).1 fuel sh hready
  | cons second rest =>
    unfold pipelineNode Reference.pipeline
    dsimp only
    have hforked : Matching (ForkAgrees errexit scope (stageShell negated sh))
        (contextPipeline env exec fuel negated first (second :: rest) false (stageShell negated sh))
        (Reference.forkStages env leaf run fuel negated (first :: second :: rest)
          (sh.enter ((if negated then Frame.tested else id) sh.frame))) := by
      rw [← enter_pipeline]
      exact matching_stages hquiet hstages _ (ready_stageShell sh hready negated)
    refine Matching.inside hforked fun a o sh' ha => ?_
    have hleave := leave_pipeline negated sh sh' ha.frame
    have henc := ha.encodes.enter sh.frame
    rw [ha.encodes.shell] at henc
    rw [ha.encodes.shell, hleave]
    cases negated with
    | true =>
      exact Agrees.body ⟨henc.marked true, rfl, ha.ready.enter _, fun _ _ _ _ => rfl⟩ rfl
    | false => exact ForkAgrees.body ⟨henc, rfl, ha.ready.enter _, ha.finished, ha.unmarked⟩ rfl

/-! ### The end of a command -/

/-- Whether a node counts as exempt at its end: everything does while `errexit` is
ignored, and what was marked before stays marked, a simple command's own flag apart. -/
def exempted (sh : Shell W N) (plan : Plan N) (result : Execution) : Bool :=
  decide (sh.state.info.errexitIgnored ≠ 0) || match plan with
    | .simple _ => false
    | _ => result.errexitIgnored

/-- The nodes that leave `errexit` to their parts. -/
def Plan.composed : Plan N → Bool
  | .list _ | .and _ _ | .or _ _ => true
  | _ => false

/-- Whether `errexit` asks for the exit at the end of a node. -/
def demands (sh : Shell W N) (plan : Plan N) (result : Execution) : Bool :=
  sh.state.option Opt.errexit && decide (result.status ≠ 0) && !exempted sh plan result &&
    decide (result.control = .none) && !result.jobSuspended && !plan.composed

theorem requested_eq (c : Bool) (result : Execution) :
    (if c then { result with exitRequested := true } else result)
      = { result with exitRequested := result.exitRequested || c } := by
  cases c <;> simp

theorem applyErrexit_eq (sh : Shell W N) (plan : Plan N) (result : Execution) :
    applyErrexit sh plan result = { result with
      errexitIgnored := exempted sh plan result
      exitRequested := result.exitRequested || demands sh plan result } := by
  unfold applyErrexit exempted demands exempted
  dsimp only
  rw [requested_eq]
  by_cases hdepth : sh.state.info.errexitIgnored = 0
  · cases plan <;> simp [hdepth, Plan.composed]
  · cases plan <;> simp [hdepth]

theorem composed_of_observed (h : Reference.observed plan = true) :
    plan.composed = false := by
  cases plan <;> first | rfl | cases h

theorem Outcome.status_demanded (o : Outcome) : o.demanded.status = o.status := by
  cases o <;> simp only [demanded] <;> first | rfl | (split <;> rfl)

theorem Outcome.demanded_of_zero (h : o.status = 0) : o.demanded = o := by
  cases o <;> simp_all [demanded, status]

theorem Outcome.demanded_of_not_completed (h : ¬o.Completed) : o.demanded = o := by
  cases o <;> simp_all [demanded, Outcome.Completed]

/-- The end of a node, where no trap is pending and nothing failed. -/
theorem planEnd_eq (hquiet : Quiet env errexit scope) (fuel : ℕ) (plan : Plan N)
    (h : Encodes a o sh) :
    planEnd env exec fuel plan a = some
      { result := applyErrexit sh plan a.result, shell := sh.setStatus o.status } := by
  have hstatus : (applyErrexit sh plan a.result).status = o.status := by
    rw [applyErrexit_eq]
    exact h.status
  unfold planEnd
  simp only [Answer.failStatus, h.failure, Option.isSome_none, Bool.false_and, Bool.false_eq_true,
    if_false, Answer.settled, executePendingTraps_quiet hquiet, h.shell, hstatus,
    Option.bind_eq_bind, Option.bind_some]
  rfl

/-- The outcome after `errexit` had its say. -/
theorem Encodes.applied (h : Encodes a o sh)
    (plan : Plan N) :
    Encodes { result := applyErrexit sh plan a.result, shell := sh.setStatus o.status }
      (if demands sh plan a.result then .exited o.status else o) (sh.setStatus o.status) := by
  have hinteractive : (sh.setStatus o.status).interactive = a.shell.interactive := by
    rw [h.shell]
    simp only [Shell.interactive, Shell.setStatus, Shell.withState, State.setStatus]
    split <;> rfl
  have houtcome := h.outcome
  unfold Answer.outcome at houtcome
  rw [applyErrexit_eq]
  cases hdemands : demands sh plan a.result with
  | false =>
    refine ⟨rfl, rfl, rfl, h.redirectionFailed, h.jobSuspended, ?_, h.status, h.nonneg, ?_, h.levels⟩
    · simpa [Answer.outcome, hinteractive] using houtcome
    · simpa using h.transfer
  | true =>
    have hcontrol : a.result.control = .none := by
      simp only [demands, Bool.and_eq_true, decide_eq_true_eq] at hdemands
      exact hdemands.1.1.2
    refine ⟨rfl, rfl, rfl, h.redirectionFailed, h.jobSuspended, ?_, h.status, h.nonneg, ?_, h.levels⟩
    · simp [Answer.outcome, hcontrol, h.status]
    · exact fun hne => absurd hcontrol hne

/-- `errexit` asks for the exit in the record exactly where the reference does. -/
theorem demands_eq (h : BodyAgrees errexit scope plan sh a o sh') :
    (if demands sh' plan a.result then .exited o.status else o)
      = if errexit && Reference.observed plan && !decide (sh'.frame.depths.errexitIgnored ≠ 0)
        then o.demanded else o := by
  have hignored : sh'.state.info.errexitIgnored = sh.state.info.errexitIgnored :=
    congrArg (fun f => f.depths.errexitIgnored) h.frame
  have hdepth : sh'.frame.depths.errexitIgnored = sh'.state.info.errexitIgnored := rfl
  rw [hdepth]
  -- a command that neither completed nor failed is left alone on both sides
  by_cases hzero : o.status = 0
  · rw [Outcome.demanded_of_zero hzero, ite_self, if_neg]
    simp [demands, h.encodes.status, hzero]
  by_cases hcompleted : o.Completed
  · have hcontrol : a.result.control = .none := by
      have houtcome := h.encodes.outcome
      unfold Answer.outcome at houtcome
      cases hcontrol : a.result.control with
      | none => rfl
      | breakLoop | continueLoop | returnCall =>
        rw [hcontrol] at houtcome
        rw [← houtcome] at hcompleted
        exact hcompleted.elim
    have hdemanded : o.demanded = .exited o.status := by
      cases o with
      | finished status => exact if_pos hzero
      | aborted status => exact if_pos hzero
      | exited _ | returning _ | breaking _ | continuing _ => exact hcompleted.elim
    rw [hdemanded]
    congr 1
    simp only [demands, hcontrol, h.encodes.jobSuspended, h.ready.errexit, h.encodes.status,
      decide_true, Bool.not_false, Bool.and_true, eq_iff_iff, ne_eq, hzero, not_false_eq_true]
    cases herrexit : errexit with
    | false => simp
    | true =>
      by_cases htested : sh'.state.info.errexitIgnored = 0
      · cases hobserved : Reference.observed plan with
        | true =>
          rw [composed_of_observed hobserved]
          have hmarked : exempted sh' plan a.result = false := by
            rcases h.unmarked hobserved with ⟨tree, rfl⟩ | hunmarked
            · simp [exempted, htested]
            · unfold exempted
              split <;> simp [htested, hunmarked]
          simp [hmarked, htested]
        | false =>
          have hmarked := h.exempt hobserved herrexit (hignored ▸ htested) hcompleted hzero
          have hexempted : exempted sh' plan a.result = true := by
            cases plan with
            | simple tree => cases hobserved
            | _ => simp [exempted, hmarked]
          simp [hexempted]
      · simp [exempted, htested]
  · rw [Outcome.demanded_of_not_completed hcompleted, ite_self]
    split
    · rename_i hdemands
      -- the exit was asked for already
      have houtcome := h.encodes.outcome
      simp only [demands, Bool.and_eq_true, decide_eq_true_eq] at hdemands
      unfold Answer.outcome at houtcome
      rw [hdemands.1.1.2] at houtcome
      dsimp only at houtcome
      split at houtcome
      · rw [← houtcome]
        rfl
      · split at houtcome
        · rw [← houtcome] at hcompleted
          exact absurd trivial hcompleted
        · rw [← houtcome] at hcompleted
          exact absurd trivial hcompleted
    · rfl

theorem matching_planEnd (hquiet : Quiet env errexit scope) (fuel : ℕ)
        (h : BodyAgrees errexit scope plan sh a o sh') :
    Matching (NodeAgrees errexit scope sh) (planEnd env exec fuel plan a)
      (Reference.finish errexit plan o sh') := by
  have hignored : sh'.state.info.errexitIgnored = sh.state.info.errexitIgnored :=
    congrArg (fun f => f.depths.errexitIgnored) h.frame
  have henc := h.encodes.applied plan
  rw [demands_eq h] at henc
  rw [planEnd_eq hquiet fuel plan h.encodes]
  refine Option.Rel.some ⟨⟨henc, (frame_setStatus _ _).trans h.frame, h.ready.setStatus _, ?_⟩, ?_⟩
  · intro herrexit hdepth hcompleted hstatus
    dsimp only at hcompleted hstatus ⊢
    have hdepth' : sh'.frame.depths.errexitIgnored = 0 := hignored.trans hdepth
    rw [herrexit, hdepth'] at hcompleted hstatus
    cases hobserved : Reference.observed plan with
    | true =>
      -- an observed failure was turned into an exit
      rw [hobserved] at hcompleted hstatus
      simp only [ne_eq, not_true_eq_false, decide_false, Bool.not_false, Bool.and_true, if_true]
        at hcompleted hstatus
      rw [Outcome.status_demanded] at hstatus
      cases o with
      | finished status =>
        have hnonzero : status ≠ 0 := hstatus
        rw [Outcome.demanded, if_pos hnonzero] at hcompleted
        exact hcompleted.elim
      | aborted status =>
        have hnonzero : status ≠ 0 := hstatus
        rw [Outcome.demanded, if_pos hnonzero] at hcompleted
        exact hcompleted.elim
      | exited _ | returning _ | breaking _ | continuing _ => exact hcompleted.elim
    | false =>
      rw [hobserved] at hcompleted hstatus
      simp only [Bool.and_false, Bool.false_and, Bool.false_eq_true, if_false]
        at hcompleted hstatus
      have hmarked := h.exempt hobserved herrexit hdepth hcompleted hstatus
      rw [applyErrexit_eq]
      cases plan with
      | simple tree => cases hobserved
      | _ => simp [exempted, hmarked]
  · intro hdepth
    rw [applyErrexit_eq]
    simp [exempted, hignored, hdepth]

/-! ### Every command -/

theorem Plan.Child.branches {tree : N} {branches : List (Plan N × Plan N)}
    {otherwise : Option (Plan N)}
    (h : ∀ part, Plan.Child part (.ifClause tree branches otherwise) → P part) :
    (∀ body ∈ otherwise, P body) ∧ ∀ branch ∈ branches, P branch.1 ∧ P branch.2 := by
  refine ⟨fun body hbody => ?_, fun branch hbranch => ?_⟩
  · rw [Option.mem_def] at hbody
    subst hbody
    exact h body .otherwise
  · exact ⟨h branch.1 (.condition hbranch), h branch.2 (.branch hbranch)⟩

theorem defineFunction_settled (hquiet : Quiet env errexit scope) (tree : N) {name : N}
    (body : Plan N) (hready : Ready errexit scope sh.state) {x : Bytes}
    (hfield : ((env.prepareWord name .redirection).run sh.world sh.state).1 = .ok [x])
    (hspecial : specialName x = false) (hvalid : validName x = true)
    (htables : ∀ table ∈ scope.tables, Table.put x ⟨tree, body⟩ table ∈ scope.tables) :
    (defineFunction env sh tree name body).1 = none ∧
      Ready errexit scope (defineFunction env sh tree name body).2.state := by
  have hready₁ : Ready errexit scope ((env.prepareWord name .redirection).on sh).2.state :=
    (hquiet.word name .redirection sh.world sh.state hready).2.1
  have hon : ((env.prepareWord name .redirection).on sh).1 = .ok [x] := hfield
  unfold defineFunction
  simp only [hon, hspecial, State.setFunction, hvalid, Bool.not_true, Bool.false_eq_true, if_false]
  exact ⟨trivial, hready₁.noexec, hready₁.errexit, hready₁.writable, htables _ hready₁.functions⟩

theorem matching_planBody (hquiet : Quiet env errexit scope)
    (hself : Settled env errexit scope leaf plan)
    (hparts : ∀ part, Plan.Child part plan →
      StageSimulates env errexit scope (executePlan env fuel) leaf run fuel part)
    (sh : Shell W N) (hready : Ready errexit scope sh.state) :
    Matching (BodyAgrees errexit scope plan sh) (planBody env (executePlan env fuel) fuel sh plan)
      (Reference.command env leaf run fuel sh plan) := by
  have hruns : ∀ part, Plan.Child part plan →
      Simulates errexit scope (executePlan env fuel) run part := fun part h => (hparts part h).1
  cases plan with
  | simple tree =>
    have hkept : Fuel.Always (Contained sh)
        (runtimeSimple env (executePlan env fuel) fuel false sh tree) :=
      contained_runtimeSimple (contained_executePlan env fuel) fuel false sh tree
    have hleaf := hself fuel false sh hready
    unfold planBody Reference.command
    dsimp only
    generalize runtimeSimple env (executePlan env fuel) fuel false sh tree = x at hkept hleaf ⊢
    generalize leaf fuel false sh tree = y at hleaf ⊢
    cases hleaf with
    | none => exact Option.Rel.none
    | @some a r ha =>
      rcases ha with ⟨henc, hready'⟩ | ⟨hdirect, -, -⟩
      · have hframe : r.2.frame = sh.frame := by
          rw [← henc.shell]
          exact (hkept a rfl).1
        refine Option.Rel.some ⟨henc, hframe, hready', fun hobserved => ?_, fun _ => ?_⟩
        · cases hobserved
        · exact .inl ⟨tree, rfl⟩
      · cases hdirect
  | pipeline negated first rest =>
    refine matching_pipelineNode hquiet (fun part hpart => ?_) sh hready
    rcases List.mem_cons.mp hpart with rfl | hrest
    · exact hparts _ .first
    · exact hparts _ (.stage hrest)
  | and left right =>
    exact (matching_andOr (hruns _ .andLeft) (hruns _ .andRight) true sh hready).imp
      fun _ _ _ h => h.body rfl
  | or left right =>
    exact (matching_andOr (hruns _ .orLeft) (hruns _ .orRight) false sh hready).imp
      fun _ _ _ h => h.body rfl
  | list items =>
    exact (matching_listItems hquiet fuel (fun item hitem => hruns _ (.item hitem)) sh _ 0 sh
      (agrees_start hready)).imp fun _ _ _ h => h.body rfl
  | subshell tree body =>
    exact (matching_subshell hquiet (hruns _ .subshell) sh hready).imp fun _ _ _ h => h.body rfl
  | brace tree body =>
    exact (matching_redirected hquiet tree (fun sh' hready' =>
      (hruns _ .brace sh' hready').imp fun _ _ _ h => h.toAgrees) sh hready).imp
        fun _ _ _ h => h.body rfl
  | ifClause tree branches otherwise =>
    obtain ⟨hotherwise, hbranches⟩ := Plan.Child.branches hruns
    exact (matching_redirected hquiet tree (fun sh' hready' => matching_ifBranches hotherwise
      hbranches sh' {} hready' (agrees_start hready').encodes) sh hready).imp
        fun _ _ _ h => h.body rfl
  | forClause tree name words body =>
    exact (matching_redirected hquiet tree (matching_forClause hquiet hself (hruns _ .forBody) words)
      sh hready).imp fun _ _ _ h => h.body rfl
  | loop tree isWhile condition body =>
    exact (matching_redirected hquiet tree (matching_whileClause (hruns _ .loopCondition)
      (hruns _ .loopBody) isWhile fuel) sh hready).imp fun _ _ _ h => h.body rfl
  | caseClause tree word items =>
    exact (matching_redirected hquiet tree (matching_caseClause hquiet
      (fun item hitem => hruns _ (.caseItem hitem)) word) sh hready).imp fun _ _ _ h => h.body rfl
  | function tree name body =>
    obtain ⟨x, hfield, hspecial, hvalid, htables⟩ := hself sh.world sh.state hready
    obtain ⟨hdefined, hready'⟩ :=
      defineFunction_settled hquiet tree body hready hfield hspecial hvalid htables
    have hframe : (defineFunction env sh tree name body).2.frame = sh.frame :=
      frame_defineFunction sh tree name body
    unfold planBody Reference.command
    dsimp only
    generalize defineFunction env sh tree name body = defined at hdefined hready' hframe ⊢
    obtain ⟨failure, sh'⟩ := defined
    dsimp only at hdefined hready' hframe
    subst hdefined
    have hagrees : Agrees errexit scope sh { shell := sh' } (.finished 0) sh' :=
      (agrees_start hready').of_frame hframe
    exact .halt (Agrees.body hagrees rfl)

theorem matching_planStep (hquiet : Quiet env errexit scope)
    (hself : Settled env errexit scope leaf plan)
    (hparts : ∀ part, Plan.Child part plan →
      StageSimulates env errexit scope (executePlan env fuel) leaf run fuel part)
    (sh : Shell W N) (hready : Ready errexit scope sh.state) :
    Matching (NodeAgrees errexit scope sh) (planStep env (executePlan env fuel) fuel sh plan)
      (Reference.step env leaf run errexit fuel sh plan) := by
  have hstack : Query.on env.stackExhausted sh = (false, sh) := by
    simp [Query.on, hquiet.stack]
  have hnoexec : sh.noexec = false := hready.noexec
  unfold planStep Reference.step
  simp only [hstack, hnoexec, Bool.false_eq_true, if_false]
  exact Matching.follow (matching_planBody hquiet hself hparts sh hready)
    fun a o sh' h => matching_planEnd hquiet fuel h

end Callbacks

/-- **The executor agrees with the reference.**  On every plan whose simple commands do
what the leaves say, from every ready shell and with any fuel, `executePlan` and
`reference` answer together, with the same outcome and the same shell. -/
theorem agrees_executePlan {env : Env W N} {errexit : Bool} {scope : Scope (Function N)}
    {leaf : ℕ → Bool → Shell W N → N → Option (Outcome × Shell W N)}
    (hquiet : Quiet env errexit scope) (fuel : ℕ)
    (hplan : plan.Everywhere (Settled env errexit scope leaf)) :
    Simulates errexit scope (executePlan env fuel) (reference env errexit leaf fuel) plan := by
  induction fuel generalizing plan with
  | zero => exact fun _ _ => Option.Rel.none
  | succ fuel ih =>
    intro sh hready
    refine matching_planStep hquiet hplan.self (fun part hpart => ⟨ih (hplan.child hpart), ?_⟩) sh
      hready
    rintro tree rfl direct sh' hready'
    exact (hplan.child hpart).self fuel direct sh' hready'

end Execute

end CShell
