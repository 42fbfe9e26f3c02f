import CShell.Execute.Plan
import CShell.Lib.Fuel

/-!
# Transfers stay within their frame

Every command gives back the counters and flags it was started with, and a
transfer it reports names a loop, a function or a dot script that encloses it.
The proof is one induction over the fuel of `executePlan`; each function of the
executor has one lemma saying that it is `Contained` if the executor it calls back
into is.

## Main definitions

* `Bounded` — a result whose transfer fits a frame.
* `Contained` — an answer that keeps the frame and is bounded by it.

## Main results

* `contained_executePlan` — **every node is contained.**
* `executeResolved_call`, `executeResolved_dot` — what a function call and a dot
  script never report, and the positional parameters they give back.
* `transfers_contained` — the statements about whole runs.
-/

namespace CShell

namespace State

variable {F : Type}

/-- Two states with the same positional parameters and metadata. -/
def SameMeta (s s' : State F) : Prop := s'.arguments = s.arguments ∧ s'.info = s.info

theorem SameMeta.refl (s : State F) : SameMeta s s := ⟨rfl, rfl⟩

theorem SameMeta.trans {s s' s'' : State F} (h : SameMeta s s') (h' : SameMeta s' s'') :
    SameMeta s s'' := ⟨h'.1.trans h.1, h'.2.trans h.2⟩

theorem SameMeta.depths {s s' : State F} (h : SameMeta s s') : s'.depths = s.depths := by
  simp [State.depths, h.2]

theorem sameMeta_assigned (s : State F) (name : Bytes) : SameMeta s (s.assigned name) := by
  unfold State.assigned State.hashClear
  split <;> split <;> exact ⟨rfl, rfl⟩

theorem sameMeta_setVariable (s : State F) (name value : Bytes) :
    SameMeta s (s.setVariable name value).2 := by
  unfold State.setVariable
  split
  · exact .refl s
  · split
    · split
      · exact .refl s
      · exact SameMeta.trans ⟨rfl, rfl⟩ (sameMeta_assigned _ name)
    · exact SameMeta.trans ⟨rfl, rfl⟩ (sameMeta_assigned _ name)

theorem sameMeta_updateAttributes (s : State F) (name : Bytes) (set clear : UInt32) :
    SameMeta s (s.updateAttributes name set clear).2 := by
  unfold State.updateAttributes
  dsimp only
  split
  · exact .refl s
  · split
    · split <;> exact ⟨rfl, rfl⟩
    · split <;> exact ⟨rfl, rfl⟩

theorem sameMeta_restoreVariables (saves : List VariableSave) (s : State F) :
    SameMeta s (s.restoreVariables saves) := by
  induction saves generalizing s with
  | nil => exact .refl s
  | cons entry saves ih =>
    have hentry : SameMeta s (s.restoreVariable entry) := by
      unfold State.restoreVariable State.hashClear
      dsimp only
      split <;> exact ⟨rfl, rfl⟩
    exact hentry.trans (ih _)

theorem sameMeta_setFunction (s : State F) (name : Bytes) (f : Option F) :
    SameMeta s (s.setFunction name f).2 := by
  unfold State.setFunction
  split
  · exact .refl s
  · cases f <;> exact ⟨rfl, rfl⟩

theorem depths_setBackground (s : State F) (pid : ℤ) :
    (s.setBackground pid).2.depths = s.depths := by
  unfold State.setBackground
  split <;> rfl

end State

namespace Execute

variable {W N F : Type}

open Fuel

/-! ### Frames and bounds -/

/-- The transfer of a result names loops, or a call, that the frame is inside of. -/
def Bounded (frame : Frame) (result : Execution) : Prop :=
  (result.control = .breakLoop ∨ result.control = .continueLoop →
    1 ≤ result.levels ∧ result.levels ≤ frame.context.loopDepth) ∧
  (result.control = .returnCall → 0 < frame.depths.function ∨ 0 < frame.depths.source)

/-- An answer that gives the frame back and transfers only within it. -/
def Contained (sh : Shell W N) (a : Answer W N) : Prop :=
  a.shell.frame = sh.frame ∧ Bounded sh.frame a.result

variable {result : Execution} {a : Answer W N} {sh sh' : Shell W N}

theorem Bounded.of_none {frame : Frame} (h : result.control = .none) :
    Bounded frame result := by
  simp [Bounded, h]

theorem Contained.of_none (hframe : a.shell.frame = sh.frame)
    (h : a.result.control = .none) : Contained sh a := ⟨hframe, .of_none h⟩

theorem Contained.of_frame (h : Contained sh' a)
    (hframe : sh'.frame = sh.frame) : Contained sh a := by
  rwa [Contained, hframe] at h

/-- A result that is not `stopped` transfers nowhere. -/
theorem control_of_not_stopped (h : stopped sh result = false) : result.control = .none := by
  simp only [stopped, Bool.or_eq_false_iff, bne_eq_false_iff_eq] at h
  exact h.1.1.2

theorem control_of_not_halted (h : halted sh result = false) : result.control = .none := by
  simp only [halted, Bool.or_eq_false_iff] at h
  exact control_of_not_stopped h.1

theorem frame_withState {state : State (Function N)}
    (h : state.depths = sh.state.depths) : (sh.withState state).frame = sh.frame := by
  simp [Shell.withState, Shell.frame, h]

theorem frame_sameMeta {state : State (Function N)}
    (h : State.SameMeta sh.state state) : (sh.withState state).frame = sh.frame :=
  frame_withState h.depths

theorem contained_failStatus (h : Contained sh a) :
    Contained sh a.failStatus := by
  unfold Answer.failStatus
  split <;> exact h

theorem contained_settled (h : Contained sh a) :
    Contained sh a.settled := ⟨(frame_setStatus _ _).trans h.1, h.2⟩

/-- The executor a function calls back into is contained. -/
def Containing (exec : Shell W N → Plan N → Option (Answer W N)) : Prop :=
  ∀ sh plan, Always (Contained sh) (exec sh plan)

/-! ### Assignments -/

theorem sameMeta_assignmentsSet (exported : Bool) (assignments : List (Bytes × Bytes))
    (s : State F) : State.SameMeta s (assignmentsSet exported s assignments).2 := by
  induction assignments generalizing s with
  | nil => exact .refl s
  | cons entry rest ih =>
    have hset := State.sameMeta_setVariable s entry.1 entry.2
    rcases hs : s.setVariable entry.1 entry.2 with ⟨status, s'⟩
    rw [hs] at hset
    simp only [assignmentsSet, hs]
    cases status with
    | ok =>
      cases exported with
      | false => exact hset.trans (ih s')
      | true =>
        have hupdate := State.sameMeta_updateAttributes s' entry.1 Attr.exported 0
        rcases hu : s'.updateAttributes entry.1 Attr.exported 0 with ⟨status, s''⟩
        rw [hu] at hupdate
        cases status with
        | ok => simpa [hu] using hset.trans (hupdate.trans (ih s''))
        | _ => simpa [hu] using hset.trans hupdate
    | _ => exact hset

theorem sameMeta_assignmentsApply (s : State F) (command : Command) (category : Category) :
    State.SameMeta s (assignmentsApply s command category).2 := by
  unfold assignmentsApply
  dsimp only
  split
  · exact .refl s
  · split
    · exact .refl s
    · split
      · rename_i saves _
        have hset := sameMeta_assignmentsSet
          ([Category.external, .regularBuiltin, .function].contains category ||
            s.option Opt.allexport) command.assignments s
        split
        · rename_i hs
          rw [hs] at hset
          exact hset
        · rename_i hs
          rw [hs] at hset
          exact hset.trans (State.sameMeta_restoreVariables _ _)
      · exact .refl s

/-! ### `break`, `continue`, `return` -/

/-- **The result of `flow_handler` on a control builtin is bounded**: the operand is
clamped to the enclosing loops, and there is no transfer without one. -/
theorem bounded_flowControl (sh : Shell W N) (name : Bytes) (args : List Bytes)
    (result : Execution) (h : result.control = .none) :
    Bounded sh.frame (flowControl sh name args result) := by
  -- the transfer itself, for a value of the operand that was accepted
  have htransfer : ∀ value : ℤ, (name ≠ ascii "return" → 0 < value) →
      Bounded sh.frame
        (if name == ascii "return" then
          if sh.state.info.functionDepth = 0 ∧ sh.state.info.sourceDepth = 0 then
            { result with status := 2 }
          else { result with control := .returnCall, levels := 0, status := value % 256 }
        else if sh.context.loopDepth = 0 then { result with status := 2 }
        else { result with
          control := if name == ascii "break" then .breakLoop else .continueLoop
          levels := if value > sh.context.loopDepth then sh.context.loopDepth else value.toNat
          status := 0 } : Execution) := by
    intro value hvalue
    split
    · split
      · exact .of_none h
      · rename_i hdepth
        refine ⟨by simp, fun _ => ?_⟩
        simp only [Shell.frame, State.depths]
        omega
    · rename_i hname
      have hpos : 0 < value := hvalue (by simpa using hname)
      split
      · exact .of_none h
      · rename_i hloops
        refine ⟨fun _ => ?_, fun hreturn => ?_⟩
        · simp only [Shell.frame]
          split <;> omega
        · revert hreturn
          dsimp only
          split <;> simp
  unfold flowControl
  dsimp only
  split
  · refine htransfer _ fun hname => ?_
    simp [hname]
  · split
    · rename_i value _
      split
      · exact .of_none h
      · rename_i hvalue
        refine htransfer value fun hname => ?_
        simpa [hname] using hvalue
    · exact .of_none h
  · exact .of_none h

theorem control_builtinExit (sh : Shell W N) (args : List Bytes) (result : Execution) :
    (builtinExit sh args result).control = result.control := by
  unfold builtinExit
  dsimp only
  split
  · rfl
  · split <;> rfl
  · rfl

section Callbacks

variable {env : Env W N} {exec : Shell W N → Plan N → Option (Answer W N)}

/-! ### Inputs and traps -/

section

variable (hexec : Containing exec)
include hexec

theorem contained_executeContextAst (sh : Shell W N) (plan : Plan N) :
    Always (Contained sh) (executeContextAst env exec sh plan) := by
  unfold executeContextAst
  dsimp only
  refine Always.bind (P := Contained sh) ?_ fun a ha =>
    .some (contained_settled (contained_failStatus ha))
  split
  · exact .some (.of_none (frame_query _ _) rfl)
  · split
    · exact .some (.of_none (by simp) rfl)
    · exact (hexec _ plan).imp fun a ha => ha.of_frame (by simp)

theorem contained_evaluateLoop (handle : ℕ) (sourced : Bool) (fuel : ℕ)
    (sh : Shell W N) (result : Execution) (h : result.control = .none) :
    Always (Contained sh) (evaluateLoop env exec handle sourced fuel sh result) := by
  induction fuel generalizing sh result with
  | zero => exact .none _
  | succ fuel ih =>
    unfold evaluateLoop
    dsimp only
    split
    · exact .some (.of_none (frame_query _ _) h)
    · exact .some (.of_none (frame_query _ _) h)
    · refine Always.bind (contained_executeContextAst hexec _ _) fun a ha => ?_
      have ha' : Contained sh a := ha.of_frame (frame_query _ _)
      split
      · exact .some ha'
      · rename_i hstopped
        have hnone := control_of_not_stopped (by simpa using hstopped)
        exact (ih a.shell a.result hnone).imp fun b hb => hb.of_frame ha'.1

theorem contained_evaluateInput (fuel handle : ℕ) (sourced : Bool)
    (sh : Shell W N) (result : Execution) (h : result.control = .none) :
    Always (Contained sh) (evaluateInput env exec fuel handle sourced sh result) := by
  unfold evaluateInput
  dsimp only
  split
  · exact .some (.of_none (frame_query _ _) h)
  · exact Always.bind (contained_evaluateLoop hexec handle sourced fuel _
      { result with status := 0 } h) fun a ha => .some ha

/-- A trap action leaves the frame, and what it adds to the outer result fits it. -/
theorem contained_evaluateTrapAction (fuel : ℕ) (action : Bytes)
    (saved : ℤ) (outer : Execution) (sh : Shell W N) (houter : Bounded sh.frame outer) :
    Always (fun r => r.2.frame = sh.frame ∧ Bounded sh.frame r.1)
      (evaluateTrapAction env exec fuel action saved outer sh) := by
  unfold evaluateTrapAction
  dsimp only
  let inside : Frame :=
    ⟨{ sh.context with inTrap := true, trapStatus := saved }, sh.state.depths⟩
  refine Always.bind (P := fun a : Answer W N =>
    a.shell.frame = inside ∧ Bounded inside a.result) ?_ fun a ha => ?_
  · have hopen : ∀ q : Query W (Function N) (Except Failure ℕ),
        (Query.on q (Shell.setStatus
          { sh with context := { sh.context with inTrap := true, trapStatus := saved } }
          saved)).2.frame = inside := by
      intro q
      rw [frame_query, frame_setStatus]
      rfl
    split
    · exact .some ⟨hopen _, .of_none rfl⟩
    · refine (contained_evaluateInput hexec fuel _ false _ {} rfl).imp fun a ha => ?_
      rw [Contained, hopen] at ha
      exact ha
  · obtain ⟨hframe, hbounded⟩ := ha
    have hrestored : ({ a.shell with context :=
        { a.shell.context with
          inTrap := sh.context.inTrap
          trapStatus := sh.context.trapStatus } } : Shell W N).frame = sh.frame := by
      have hcontext := congrArg Frame.context hframe
      have hdepths := congrArg Frame.depths hframe
      simp only [Shell.frame, inside] at hcontext hdepths ⊢
      rw [hcontext, hdepths]
    split
    · exact .some ⟨hrestored, houter⟩
    · split
      · exact .some ⟨(frame_setStatus _ _).trans (hrestored), hbounded⟩
      · exact .some ⟨(frame_setStatus _ _).trans (hrestored), houter⟩

theorem contained_pendingLoop (fuel : ℕ) (seen : List ℕ)
    (result : Execution) (sh : Shell W N) (h : Bounded sh.frame result) :
    Always (fun r => r.2.2.frame = sh.frame ∧ Bounded sh.frame r.2.1)
      (pendingLoop env exec fuel seen result sh) := by
  induction fuel generalizing seen result sh with
  | zero => exact .none _
  | succ fuel ih =>
    unfold pendingLoop
    dsimp only
    split
    · exact .some ⟨frame_query _ _, h⟩
    · split
      · exact .some ⟨by simp, h⟩
      · exact .some ⟨by simp, h⟩
      · refine Always.bind (contained_evaluateTrapAction hexec fuel _ _ result _ h)
          fun r hr => ?_
        simp only [frame_query] at hr
        split
        · exact .some hr
        · refine (ih _ r.1 r.2 (by rw [hr.1]; exact hr.2)).imp fun r' hr' => ?_
          rw [hr.1] at hr'
          exact hr'

theorem contained_executePendingTraps (fuel : ℕ) (result : Execution)
    (sh : Shell W N) (h : Bounded sh.frame result) :
    Always (Contained sh) (executePendingTraps env exec fuel result sh) := by
  unfold executePendingTraps
  dsimp only
  split
  · exact .some ⟨rfl, h⟩
  · rename_i hidle
    have hdispatching : sh.context.dispatchingTraps = false := by
      simp only [Bool.or_eq_true, Bool.not_eq_true', not_or] at hidle
      simpa using hidle.2
    refine Always.bind (contained_pendingLoop hexec (fuel + 1) [] result
      { sh with context := { sh.context with dispatchingTraps := true } } h) fun r hr => ?_
    have hrestored : ({ r.2.2 with context :=
        { r.2.2.context with dispatchingTraps := false } } : Shell W N).frame = sh.frame := by
      have hcontext := congrArg Frame.context hr.1
      have hdepths := congrArg Frame.depths hr.1
      simp only [Shell.frame] at hcontext hdepths ⊢
      rw [hcontext, hdepths, ← hdispatching]
    split
    · exact .some ⟨(frame_setStatus _ _).trans hrestored, hr.2⟩
    · exact .some ⟨hrestored, hr.2⟩

end

/-! ### Calls -/

/-- What a call leaves: nothing escapes from it, and the caller's positional
parameters are back. -/
def Returned (sh : Shell W N) (a : Answer W N) : Prop :=
  Contained sh a ∧ a.result.control = .none ∧
    a.shell.state.arguments = sh.state.arguments ∧
    a.shell.state.info.argumentCount = sh.state.info.argumentCount

/-- **A function call transfers nowhere and gives the parameters back.** -/
theorem returned_flowFunction (hexec : Containing exec) (sh : Shell W N) (name : Bytes)
    (args : List Bytes) (result : Execution) (h : result.control = .none) :
    Always (Returned sh) (flowFunction env exec sh name args result) := by
  unfold flowFunction
  dsimp only
  split
  · exact .some ⟨.of_none rfl h, h, rfl, rfl⟩
  · split
    · exact .some ⟨.of_none (frame_query _ _) h, h, rfl, rfl⟩
    · split
      · exact .some ⟨.of_none (by simp) h, h, rfl, rfl⟩
      · refine Always.bind (hexec _ _) fun a ha => .some ?_
        have hcontext := congrArg Frame.context ha.1
        have hsource := congrArg (fun f => f.depths.source) ha.1
        have hignored := congrArg (fun f => f.depths.errexitIgnored) ha.1
        have hback : ((a.shell.withState ((a.shell.state.setFunctionDepth
            sh.state.info.functionDepth).popParameters (sh.state.pushParameters args).2)).setLoopDepth
              sh.context.loopDepth).frame = sh.frame := by
          simp only [Shell.frame, Shell.withState, Shell.setLoopDepth, State.depths,
            State.popParameters, State.setFunctionDepth, State.pushParameters, State.setParameters,
            context_query, state_query] at hcontext hsource hignored ⊢
          rw [hcontext, hsource, hignored]
        -- inside the call there is no loop to leave, so only `return` can be pending
        have hnone : (if a.result.control = .returnCall then
            { a.result with control := .none, levels := 0 } else a.result).control = .none := by
          split
          · rfl
          · rename_i hreturn
            have hloops := ha.2.1
            simp only [Shell.frame, Shell.setLoopDepth] at hloops
            cases hc : a.result.control with
            | none => rfl
            | breakLoop =>
              have := hloops (.inl hc)
              omega
            | continueLoop =>
              have := hloops (.inr hc)
              omega
            | returnCall => exact absurd hc hreturn
        exact ⟨.of_none hback hnone, hnone, rfl, rfl⟩

theorem frame_defineFunction (sh : Shell W N) (tree name : N) (body : Plan N) :
    (defineFunction env sh tree name body).2.frame = sh.frame := by
  unfold defineFunction
  dsimp only
  split
  · exact frame_on _ _
  · split
    · exact frame_on _ _
    · rename_i name' _ _
      have hset := State.sameMeta_setFunction
        ((env.prepareWord name .redirection).on sh).2.state name' (some ⟨tree, body⟩)
      split
      · rename_i heq
        rw [heq] at hset
        exact (frame_sameMeta hset).trans (frame_on _ _)
      · rename_i heq
        rw [heq] at hset
        exact (frame_sameMeta hset).trans (frame_on _ _)
  · exact frame_on _ _

/-! ### The evaluation builtins -/

theorem contained_evalBuiltin (hexec : Containing exec) (fuel : ℕ) (sh : Shell W N)
    (args : List Bytes) (result : Execution) (h : result.control = .none) :
    Always (Contained sh) (evalBuiltin env exec fuel sh args result) := by
  unfold evalBuiltin
  dsimp only
  split
  · exact .some (.of_none (frame_query _ _) h)
  · exact (contained_evaluateInput hexec fuel _ false _ result h).imp fun a ha =>
      ha.of_frame (frame_query _ _)

/-- What a dot script leaves: no `return` escapes from it, and parameters it was
given are taken back. -/
def Sourced (own : Bool) (sh : Shell W N) (a : Answer W N) : Prop :=
  Contained sh a ∧ a.result.control ≠ .returnCall ∧
    (own = true → a.shell.state.arguments = sh.state.arguments ∧
      a.shell.state.info.argumentCount = sh.state.info.argumentCount)

/-- **A dot script returns to its caller.** -/
theorem sourced_sourceInput (hexec : Containing exec) (fuel handle : ℕ) (parameters : List Bytes)
    (sh : Shell W N) (result : Execution) (h : result.control = .none) :
    Always (Sourced (!parameters.isEmpty) sh)
      (sourceInput env exec fuel handle parameters sh result) := by
  unfold sourceInput
  dsimp only
  refine Always.bind (contained_evaluateInput hexec fuel handle true _ result h)
    fun a ha => .some ?_
  have hcontext := congrArg Frame.context ha.1
  have hfunction := congrArg (fun f => f.depths.function) ha.1
  have hignored := congrArg (fun f => f.depths.errexitIgnored) ha.1
  have hloops := ha.2.1
  refine ⟨⟨?_, ?_, ?_⟩, ?_, ?_⟩
  · cases parameters with
    | nil =>
      simp only [Shell.frame, Shell.withState, State.depths, State.setSourceDepth,
        List.isEmpty_nil, Bool.not_true, Bool.false_eq_true, if_false]
        at hcontext hfunction hignored ⊢
      rw [hcontext, hfunction, hignored]
    | cons p ps =>
      simp only [Shell.frame, Shell.withState, State.depths, State.setSourceDepth,
        State.popParameters, State.pushParameters, State.setParameters,
        List.isEmpty_cons, Bool.not_false, if_true] at hcontext hfunction hignored ⊢
      rw [hcontext, hfunction, hignored]
  · intro hc
    dsimp only at hc ⊢
    split at hc
    · simp at hc
    · rename_i hreturn
      rw [if_neg hreturn]
      simpa [Shell.frame, Shell.withState] using hloops hc
  · intro hc
    dsimp only at hc
    split at hc
    · simp at hc
    · exact absurd hc ‹_›
  · dsimp only
    split
    · simp
    · assumption
  · intro hown
    simp [hown, State.popParameters, State.pushParameters, Shell.withState]

theorem sourced_dotBuiltin (hexec : Containing exec) (fuel : ℕ) (sh : Shell W N)
    (args : List Bytes) (result : Execution) (h : result.control = .none) :
    Always (Sourced (decide (1 < (skipDashes args).length)) sh)
      (dotBuiltin env exec fuel sh args result) := by
  have hfail : ∀ {own : Bool} {sh' : Shell W N} {failure : Failure}, sh'.frame = sh.frame →
      sh'.state = sh.state →
      Sourced own sh { result, failure := some failure, shell := sh' } := by
    intro own sh' failure hframe hstate
    exact ⟨.of_none hframe h, by simp [h], fun _ => by simp [hstate]⟩
  unfold dotBuiltin
  dsimp only
  split
  · exact .some (hfail rfl rfl)
  · rename_i file parameters hargs
    split
    · exact .some (hfail (frame_query _ _) rfl)
    · split
      · exact .some (hfail (by simp) rfl)
      · refine (sourced_sourceInput hexec fuel _ parameters _ result h).imp fun a ha => ?_
        have hown : decide (1 < (skipDashes args).length) = !parameters.isEmpty := by
          rw [hargs]
          cases parameters <;> simp
        rw [hown]
        simpa [Sourced, Contained] using ha

theorem contained_unassigned (hframe : sh'.frame = sh.frame)
    (reason : Unassigned) (h : result.control = .none) :
    Contained sh (unassigned sh' reason result) := by
  unfold unassigned
  split <;> exact .of_none hframe h

theorem frame_assignmentsApply (sh : Shell W N) (command : Command) (category : Category) :
    (sh.withState (assignmentsApply sh.state command category).2).frame = sh.frame :=
  frame_sameMeta (sameMeta_assignmentsApply sh.state command category)

theorem contained_execBuiltin (sh : Shell W N) (command : Command) (args : List Bytes)
    (result : Execution) (h : result.control = .none) :
    Contained sh (execBuiltin env sh command args result) := by
  unfold execBuiltin
  dsimp only
  split
  · exact .of_none rfl h
  · split
    · exact .of_none rfl h
    · have hframe := frame_assignmentsApply sh command .external
      split
      · rename_i heq
        rw [heq] at hframe
        exact contained_unassigned hframe _ h
      · rename_i heq
        rw [heq] at hframe
        have hrestored := fun saves (sh' : Shell W N) =>
          frame_sameMeta (State.sameMeta_restoreVariables saves sh'.state)
        split
        · exact .of_none ((hrestored _ _).trans hframe) h
        · exact .of_none ((hrestored _ _).trans hframe) h

theorem contained_commandJob (sh : Shell W N) (command : Command) (result : Execution)
    (h : result.control = .none) : Contained sh (commandJob env sh command result) := by
  unfold commandJob
  dsimp only
  have hframe := frame_assignmentsApply sh command .external
  split
  · rename_i heq
    rw [heq] at hframe
    exact contained_unassigned hframe _ h
  · rename_i heq
    rw [heq] at hframe
    have hrestored := fun saves (sh' : Shell W N) =>
      frame_sameMeta (State.sameMeta_restoreVariables saves sh'.state)
    split
    · exact .of_none ((hrestored _ _).trans hframe) h
    · exact .of_none ((hrestored _ _).trans hframe) h

variable {resolved : Shell W N → Command → Category → Handler → Option (Answer W N)}

theorem contained_commandBuiltin
    (hresolved : ∀ sh command category handler,
      Always (Contained sh) (resolved sh command category handler))
    (sh : Shell W N) (command : Command) (name : Bytes) (args : List Bytes) (result : Execution)
    (h : result.control = .none) :
    Always (Contained sh) (commandBuiltin env resolved sh command name args result) := by
  unfold commandBuiltin
  dsimp only
  split
  · exact .some (.of_none rfl h)
  · split
    · exact .some (.of_none (frame_query _ _) h)
    · split
      · exact .some (.of_none rfl h)
      · split
        · exact .some (.of_none (by simp) h)
        · refine Always.bind (P := Contained sh) ?_ fun a ha => .some ha
          split
          · exact .some (.of_none (by simp) h)
          · split
            · exact .some (Contained.of_frame (contained_commandJob _ _ _ h) rfl)
            · exact (hresolved _ _ _ _).imp fun a ha => ha.of_frame (by simp)

theorem contained_evaluationHandler (hexec : Containing exec)
    (hresolved : ∀ sh command category handler,
      Always (Contained sh) (resolved sh command category handler))
    (fuel : ℕ) (sh : Shell W N) (command : Command) (name : Bytes) (args : List Bytes)
    (result : Execution) (h : result.control = .none) :
    Always (Contained sh) (evaluationHandler env exec resolved fuel sh command name args result) := by
  unfold evaluationHandler
  dsimp only
  split
  · refine .some (.of_none ?_ h)
    exact (frame_on _ _).trans (frame_withState rfl)
  split
  · exact contained_evalBuiltin hexec fuel sh args result h
  split
  · exact (sourced_dotBuiltin hexec fuel sh args result h).imp fun a ha => ha.1
  split
  · exact .some (contained_execBuiltin sh command args result h)
  split
  · exact contained_commandBuiltin hresolved sh command name args result h
  split <;> exact .some (.of_none (frame_on _ _) h)

theorem contained_bootstrapHandler (hexec : Containing exec)
    (hresolved : ∀ sh command category handler,
      Always (Contained sh) (resolved sh command category handler))
    (fuel : ℕ) (sh : Shell W N) (command : Command) (name : Bytes) (args : List Bytes)
    (result : Execution) (h : result.control = .none) :
    Always (Contained sh) (bootstrapHandler env exec resolved fuel sh command name args result) := by
  unfold bootstrapHandler
  dsimp only
  split
  · exact .some ⟨rfl, bounded_flowControl sh name args result h⟩
  split
  · exact (returned_flowFunction hexec sh name args result h).imp fun a ha => ha.1
  split
  · refine Always.bind
      (contained_evaluationHandler hexec hresolved fuel sh command name args result h) fun a ha => ?_
    split <;> exact .some ha
  split
  · exact .some (.of_none rfl ((control_builtinExit sh args result).trans h))
  · refine .some (.of_none ?_ h)
    split
    · exact frame_on _ _
    · split
      · exact frame_query _ _
      · exact frame_on _ _

/-! ### Dispatch -/

theorem control_failStatus (a : Answer W N) : a.failStatus.result.control = a.result.control := by
  unfold Answer.failStatus
  split <;> rfl

theorem shell_failStatus (a : Answer W N) : a.failStatus.shell = a.shell := by
  unfold Answer.failStatus
  split <;> rfl

theorem contained_resolvedEnd (h : Contained sh a)
    (command : Command) (saves : List VariableSave) :
    Contained sh (resolvedEnd command saves a) := by
  have hfail := contained_failStatus h
  have hrestored : (a.failStatus.shell.withState
      (a.failStatus.shell.state.restoreVariables saves)).frame = sh.frame :=
    (frame_sameMeta (State.sameMeta_restoreVariables saves _)).trans hfail.1
  refine contained_settled ⟨hrestored, ?_⟩
  dsimp only
  split <;> exact hfail.2

/-- The end of a command changes neither the transfer nor the parameters. -/
theorem resolvedEnd_keeps (command : Command) (saves : List VariableSave) (a : Answer W N) :
    (resolvedEnd command saves a).result.control = a.result.control ∧
      (resolvedEnd command saves a).shell.state.arguments = a.shell.state.arguments ∧
      (resolvedEnd command saves a).shell.state.info.argumentCount
        = a.shell.state.info.argumentCount := by
  have hmeta := State.sameMeta_restoreVariables saves a.shell.state
  have hset : ∀ (s : State (Function N)) (status : ℤ),
      (s.setStatus status).2.arguments = s.arguments ∧
        (s.setStatus status).2.info.argumentCount = s.info.argumentCount := by
    intro s status
    unfold State.setStatus
    split <;> exact ⟨rfl, rfl⟩
  unfold resolvedEnd Answer.settled
  simp only [Shell.setStatus, Shell.withState, shell_failStatus]
  refine ⟨?_, (hset _ _).1.trans hmeta.1, (hset _ _).2.trans (by rw [hmeta.2])⟩
  rw [← control_failStatus a]
  split <;> rfl

theorem contained_executeResolved (hexec : Containing exec) (fuel : ℕ) (sh : Shell W N)
    (command : Command) (category : Category) (handler : Handler) :
    Always (Contained sh) (executeResolved env exec fuel sh command category handler) := by
  induction fuel generalizing sh command category handler with
  | zero => exact .none _
  | succ fuel ih =>
    unfold executeResolved
    dsimp only
    split
    · exact .some (contained_resolvedEnd (.of_none rfl rfl) _ _)
    · have hframe := frame_assignmentsApply sh command category
      split
      · rename_i heq
        rw [heq] at hframe
        exact .some (contained_resolvedEnd (contained_unassigned hframe _ rfl) _ _)
      · rename_i heq
        rw [heq] at hframe
        split
        · split <;> exact .some (contained_resolvedEnd (.of_none hframe rfl) _ _)
        · refine Always.bind (P := Contained sh) ?_ fun a ha =>
            .some (contained_resolvedEnd ha _ _)
          split
          · exact .some (.of_none ((frame_on _ _).trans hframe) rfl)
          · exact (contained_bootstrapHandler hexec ih fuel _ command _ _ _ rfl).imp fun a ha =>
              ha.of_frame hframe
          · exact .some (.of_none hframe rfl)

/-- **A function call, as a command**: whatever happens in the body, control comes
back to the caller with its positional parameters. -/
theorem executeResolved_call (hexec : Containing exec) (fuel : ℕ) (sh : Shell W N)
    (command : Command) (hname : ∀ name ∈ command.argv.head?, controlName name = false) :
    Always (Returned sh) (executeResolved env exec fuel sh command .function .bootstrap) := by
  cases fuel with
  | zero => exact .none _
  | succ fuel =>
    have hcontained : Always (Contained sh)
        (executeResolved env exec (fuel + 1) sh command .function .bootstrap) :=
      contained_executeResolved hexec _ _ _ _ _
    refine (hcontained.and ?_).imp fun a ha => ⟨ha.1, ha.2⟩
    have hend : ∀ saves (a : Answer W N), a.result.control = .none →
        a.shell.state.arguments = sh.state.arguments →
        a.shell.state.info.argumentCount = sh.state.info.argumentCount →
        (resolvedEnd command saves a).result.control = .none ∧
          (resolvedEnd command saves a).shell.state.arguments = sh.state.arguments ∧
          (resolvedEnd command saves a).shell.state.info.argumentCount
            = sh.state.info.argumentCount := by
      intro saves a hcontrol harguments hcount
      obtain ⟨h₁, h₂, h₃⟩ := resolvedEnd_keeps command saves a
      exact ⟨h₁.trans hcontrol, h₂.trans harguments, h₃.trans hcount⟩
    have hmeta := sameMeta_assignmentsApply sh.state command .function
    unfold executeResolved
    dsimp only
    split
    · exact .some (hend _ _ rfl rfl rfl)
    · split
      · rename_i reason state heq
        rw [heq] at hmeta
        refine .some (hend _ _ ?_ hmeta.1 (congrArg Info.argumentCount hmeta.2))
        unfold unassigned
        split <;> rfl
      · rename_i saves state heq
        rw [heq] at hmeta
        rw [if_neg (by simp)]
        refine Always.bind (P := fun a : Answer W N => a.result.control = .none ∧
          a.shell.state.arguments = sh.state.arguments ∧
          a.shell.state.info.argumentCount = sh.state.info.argumentCount) ?_ fun a ha =>
            .some (hend _ _ ha.1 ha.2.1 ha.2.2)
        split
        · rename_i heq'
          cases heq'
        · rename_i name args _ hargv
          have hcontrol : controlName name = false := hname name (by simp [hargv])
          unfold bootstrapHandler
          rw [if_neg (by simp [hcontrol]), if_pos rfl]
          refine (returned_flowFunction hexec _ name args _ rfl).imp fun a ha => ?_
          exact ⟨ha.2.1, ha.2.2.1.trans hmeta.1,
            ha.2.2.2.trans (congrArg Info.argumentCount hmeta.2)⟩
        · exact .some ⟨rfl, hmeta.1, congrArg Info.argumentCount hmeta.2⟩

/-- **A dot script, as a command**: `return` does not escape from it, and parameters
it was given are taken back. -/
theorem executeResolved_dot (hexec : Containing exec) (fuel : ℕ) (sh : Shell W N)
    (command : Command) (category : Category) (args : List Bytes)
    (hargv : command.argv = ascii "." :: args) (hcategory : category ≠ .function) :
    Always (Sourced (decide (1 < (skipDashes args).length)) sh)
      (executeResolved env exec fuel sh command category .bootstrap) := by
  cases fuel with
  | zero => exact .none _
  | succ fuel =>
    let own := decide (1 < (skipDashes args).length)
    have hcontained : Always (Contained sh)
        (executeResolved env exec (fuel + 1) sh command category .bootstrap) :=
      contained_executeResolved hexec _ _ _ _ _
    refine (hcontained.and ?_).imp fun a ha => ⟨ha.1, ha.2⟩
    have hend : ∀ saves (a : Answer W N), a.result.control ≠ .returnCall →
        (own = true → a.shell.state.arguments = sh.state.arguments ∧
          a.shell.state.info.argumentCount = sh.state.info.argumentCount) →
        (resolvedEnd command saves a).result.control ≠ .returnCall ∧
          (own = true → (resolvedEnd command saves a).shell.state.arguments = sh.state.arguments ∧
            (resolvedEnd command saves a).shell.state.info.argumentCount
              = sh.state.info.argumentCount) := by
      intro saves a hcontrol hown
      obtain ⟨h₁, h₂, h₃⟩ := resolvedEnd_keeps command saves a
      rw [h₁, h₂, h₃]
      exact ⟨hcontrol, hown⟩
    have hmeta := sameMeta_assignmentsApply sh.state command category
    unfold executeResolved
    dsimp only
    split
    · exact .some (hend _ _ (by simp) fun _ => ⟨rfl, rfl⟩)
    · rename_i hresolvable
      split
      · rename_i reason state heq
        rw [heq] at hmeta
        refine .some (hend _ _ ?_ fun _ => ⟨hmeta.1, congrArg Info.argumentCount hmeta.2⟩)
        unfold unassigned
        split <;> simp
      · rename_i saves state heq
        rw [heq] at hmeta
        have hexternal : category ≠ .external := by
          rintro rfl
          simp [resolvable] at hresolvable
        rw [if_neg hexternal]
        refine Always.bind (P := fun a : Answer W N => a.result.control ≠ .returnCall ∧
          (own = true → a.shell.state.arguments = sh.state.arguments ∧
            a.shell.state.info.argumentCount = sh.state.info.argumentCount)) ?_ fun a ha =>
              .some (hend _ _ ha.1 ha.2)
        rw [hargv]
        dsimp only
        unfold bootstrapHandler
        rw [if_neg (by decide), if_neg hcategory, if_pos (by decide)]
        have hhandler : evaluationHandler env exec (executeResolved env exec fuel) fuel
            (sh.withState state) command (ascii ".") args { category }
            = dotBuiltin env exec fuel (sh.withState state) args { category } := by
          unfold evaluationHandler
          rw [if_neg (by decide), if_neg (by decide), if_pos (by decide)]
        rw [hhandler]
        refine Always.bind (sourced_dotBuiltin hexec fuel _ args _ rfl) fun a ha => ?_
        have hown : own = true → a.shell.state.arguments = sh.state.arguments ∧
            a.shell.state.info.argumentCount = sh.state.info.argumentCount := by
          intro hown
          obtain ⟨h₁, h₂⟩ := ha.2.2 hown
          exact ⟨h₁.trans hmeta.1, h₂.trans (congrArg Info.argumentCount hmeta.2)⟩
        split <;> exact .some ⟨ha.2.1, hown⟩

theorem contained_simpleEnd (h : Contained sh a) (tree : N)
    (redirected : Bool) : Contained sh (simpleEnd env tree redirected a) := by
  unfold simpleEnd
  dsimp only
  have hend : ∀ b : Answer W N, Contained sh b → Contained sh
      (if b.failStatus.result.redirectionFailed && b.failStatus.result.category = .specialBuiltin then
        { b.failStatus with result := { b.failStatus.result with specialBuiltinError := true } }
      else b.failStatus) := by
    intro b hb
    have hfail := contained_failStatus hb
    split <;> exact hfail
  apply hend
  split
  · exact ⟨h.1, h.2⟩
  · exact h

theorem frame_validatedCategory (sh : Shell W N) (command : Command) :
    (validatedCategory env sh command).2.frame = sh.frame := by
  unfold validatedCategory
  split
  · rfl
  · unfold commandCategory
    dsimp only
    split
    · rfl
    · split <;> rfl

theorem frame_simpleRedirects (sh : Shell W N) (tree : N) (command : Command) :
    (simpleRedirects env sh tree command).2.2.frame = sh.frame := by
  unfold simpleRedirects
  dsimp only
  split
  · rfl
  · split
    · rfl
    · exact frame_on _ _

theorem contained_simpleDispatch (hexec : Containing exec) (fuel : ℕ) (direct : Bool)
    (sh : Shell W N) (command : Command) :
    Always (Contained sh) (simpleDispatch env exec fuel direct sh command) := by
  unfold simpleDispatch
  dsimp only
  have hframe : ((env.trace command).on (validatedCategory env sh command).2).2.frame = sh.frame :=
    (frame_on _ _).trans (frame_validatedCategory sh command)
  split
  · split <;> exact .some (Contained.of_none hframe rfl)
  · split
    · exact .some (Contained.of_frame (contained_commandJob _ _ _ rfl) hframe)
    · exact (contained_executeResolved hexec fuel _ _ _ _).imp fun a ha => ha.of_frame hframe

theorem contained_runtimeSimple (hexec : Containing exec) (fuel : ℕ) (direct : Bool)
    (sh : Shell W N) (tree : N) :
    Always (Contained sh) (runtimeSimple env exec fuel direct sh tree) := by
  unfold runtimeSimple
  dsimp only
  split
  · exact .some (contained_simpleEnd (.of_none (frame_on _ _) rfl) _ _)
  · split
    · exact .some (contained_simpleEnd (.of_none (by simp) rfl) _ _)
    · rename_i command _ _ _
      have hredirects : (simpleRedirects env (validatedCategory env
          (Query.on (env.validate command) ((env.arguments tree).on sh).2).2 command).2 tree
          command).2.2.frame = sh.frame := by
        rw [frame_simpleRedirects, frame_validatedCategory, frame_query, frame_on]
      split
      · exact .some (contained_simpleEnd (.of_none hredirects rfl) _ _)
      · exact .some (contained_simpleEnd (.of_none hredirects rfl) _ _)
      · have hassigned := fun command' => (frame_on (env.assignments tree command')
          (simpleRedirects env (validatedCategory env (Query.on (env.validate command)
            ((env.arguments tree).on sh).2).2 command).2 tree command).2.2).trans hredirects
        split
        · exact .some (contained_simpleEnd (.of_none (hassigned _) rfl) _ _)
        · refine Always.bind (contained_simpleDispatch hexec fuel direct _ _) fun a ha => ?_
          have ha' : Contained sh a := ha.of_frame (hassigned _)
          split
          · exact .some ha'
          · exact .some (contained_simpleEnd ha' _ _)

/-! ### Compound commands -/

theorem frame_setErrexitIgnored {depth : ℕ}
    (h : sh'.frame = (sh.setErrexitIgnored depth).frame) :
    (sh'.setErrexitIgnored sh.state.info.errexitIgnored).frame = sh.frame := by
  have hcontext := congrArg Frame.context h
  have hsource := congrArg (fun f => f.depths.source) h
  have hfunction := congrArg (fun f => f.depths.function) h
  simp only [Shell.frame, Shell.setErrexitIgnored, Shell.withState, State.depths,
    State.setErrexitIgnored] at hcontext hsource hfunction ⊢
  rw [hcontext, hsource, hfunction]

theorem frame_setLoopDepth {depth : ℕ}
    (h : sh'.frame = (sh.setLoopDepth depth).frame) :
    (sh'.setLoopDepth sh.context.loopDepth).frame = sh.frame := by
  have hcontext := congrArg Frame.context h
  have hdepths := congrArg Frame.depths h
  simp only [Shell.frame, Shell.setLoopDepth] at hcontext hdepths ⊢
  rw [hcontext, hdepths]

theorem contained_executeTest (hexec : Containing exec) (sh : Shell W N) (plan : Plan N) :
    Always (Contained sh) (executeTest exec sh plan) := by
  unfold executeTest
  refine Always.bind (hexec _ plan) fun a ha => .some ?_
  exact ⟨frame_setErrexitIgnored ha.1, ha.2⟩

theorem contained_ifBranches (hexec : Containing exec) (otherwise : Option (Plan N))
    (branches : List (Plan N × Plan N)) (sh : Shell W N) (result : Execution)
    (h : result.control = .none) :
    Always (Contained sh) (ifBranches exec otherwise sh branches result) := by
  induction branches generalizing sh result with
  | nil =>
    unfold ifBranches
    cases otherwise with
    | some body => exact hexec sh body
    | none => exact .some (.of_none rfl h)
  | cons branch branches ih =>
    unfold ifBranches
    refine Always.bind (contained_executeTest hexec sh branch.1) fun test htest => ?_
    split
    · exact .some htest
    · rename_i hgo
      simp only [Bool.or_eq_true, not_or, Bool.not_eq_true] at hgo
      split
      · exact (hexec test.shell branch.2).imp fun a ha => ha.of_frame htest.1
      · exact (ih test.shell test.result (control_of_not_halted hgo.2)).imp fun a ha =>
          ha.of_frame htest.1

/-- What a loop makes of a transfer: one level is taken off, and what is left fits
the frame outside. -/
theorem bounded_loopTransfer {frame : Frame} {depth : ℕ}
    (hdepth : frame.context.loopDepth = depth + 1) (h : Bounded frame result) :
    Bounded { frame with context := { frame.context with loopDepth := depth } }
      (loopTransfer result).2 := by
  unfold loopTransfer
  split
  · rename_i hordinary
    refine ⟨fun hc => ?_, h.2⟩
    rcases hc with hc | hc
    · exact absurd hc hordinary.1
    · exact absurd hc hordinary.2
  · rename_i htransfer
    have hlevels := h.1 (by tauto)
    rw [hdepth] at hlevels
    obtain ⟨levels, hl⟩ : ∃ levels, result.levels = levels + 1 := ⟨result.levels - 1, by omega⟩
    simp only [hl, decrement]
    split
    · refine ⟨fun _ => ?_, h.2⟩
      dsimp only
      omega
    · exact .of_none rfl

/-- An answer of a loop's body, seen from outside the loop. -/
def LoopContained (sh : Shell W N) (a : Answer W N) : Prop :=
  a.shell.frame = (sh.setLoopDepth (sh.context.loopDepth + 1)).frame ∧ Bounded sh.frame a.result

theorem loopContained_transferred (h : Contained sh' a)
    (hsh : sh'.frame = (sh.setLoopDepth (sh.context.loopDepth + 1)).frame) :
    LoopContained sh a.transferred.2 := by
  refine ⟨h.1.trans hsh, ?_⟩
  have hdepth : sh'.frame.context.loopDepth = sh.context.loopDepth + 1 := by
    rw [hsh]
    rfl
  have hbounded := bounded_loopTransfer hdepth h.2
  rw [hsh] at hbounded
  exact hbounded

theorem LoopContained.leave (h : LoopContained sh a) :
    Contained sh { a with shell := a.shell.setLoopDepth sh.context.loopDepth } :=
  ⟨frame_setLoopDepth h.1, h.2⟩

theorem contained_loopClause (hexec : Containing exec) (isWhile : Bool) (condition body : Plan N)
    (fuel : ℕ) (last : ℤ) (lastIgnored : Bool) (sh sh' : Shell W N)
    (hsh : sh'.frame = (sh.setLoopDepth (sh.context.loopDepth + 1)).frame) :
    Always (LoopContained sh) (loopClause exec isWhile condition body fuel last lastIgnored sh') := by
  induction fuel generalizing last lastIgnored sh' with
  | zero => exact .none _
  | succ fuel ih =>
    unfold loopClause
    refine Always.bind (contained_executeTest hexec sh' condition) fun tested htested => ?_
    have htest := loopContained_transferred htested hsh
    dsimp only
    split
    · exact .some htest
    · split
      · exact ih _ _ _ htest.1
      · split
        · exact .some htest
        · refine Always.bind (hexec tested.transferred.2.shell body) fun ran hran => ?_
          have hrun := loopContained_transferred hran htest.1
          split
          · exact .some hrun
          · exact ih _ _ _ hrun.1

theorem contained_whileClause (hexec : Containing exec) (fuel : ℕ) (isWhile : Bool)
    (condition body : Plan N) (sh : Shell W N) :
    Always (Contained sh) (whileClause exec fuel isWhile condition body sh) := by
  unfold whileClause
  refine Always.bind (contained_loopClause hexec isWhile condition body fuel 0 false sh _ rfl)
    fun a ha => .some ha.leave

theorem frame_forWords (words : List N) (sh : Shell W N) (acc : List Bytes) :
    (forWords env sh words acc).2.frame = sh.frame := by
  induction words generalizing sh acc with
  | nil => rfl
  | cons word words ih =>
    unfold forWords
    dsimp only
    split
    · exact frame_on _ _
    · exact (ih _ _).trans (frame_on _ _)

theorem frame_assignLoopVariable (sh : Shell W N) (name word : Bytes) :
    (assignLoopVariable sh name word).2.frame = sh.frame := by
  have hset := State.sameMeta_setVariable sh.state name word
  unfold assignLoopVariable
  split
  · rename_i state heq
    rw [heq] at hset
    split
    · exact frame_sameMeta (hset.trans (State.sameMeta_updateAttributes _ _ _ _))
    · exact frame_sameMeta hset
  · rename_i heq
    rw [heq] at hset
    exact frame_sameMeta hset

theorem contained_forLoop (hexec : Containing exec) (name : Bytes) (body : Plan N)
    (words : List Bytes) (sh : Shell W N) (answer : Answer W N) (h : LoopContained sh answer) :
    Always (LoopContained sh) (forLoop exec name body words answer) := by
  induction words generalizing answer with
  | nil => exact .some h
  | cons word words ih =>
    unfold forLoop
    dsimp only
    have hassigned : (assignLoopVariable answer.shell name word).2.frame
        = (sh.setLoopDepth (sh.context.loopDepth + 1)).frame :=
      (frame_assignLoopVariable _ _ _).trans h.1
    split
    · exact .some ⟨hassigned, h.2⟩
    · refine Always.bind (hexec _ body) fun ran hran => ?_
      have hrun := loopContained_transferred hran hassigned
      split
      · exact .some hrun
      · exact ih _ hrun

theorem contained_forClause (hexec : Containing exec) (sh : Shell W N) (name : N)
    (words : Option (List N)) (body : Plan N) :
    Always (Contained sh) (forClause env exec sh name words body) := by
  have hloop : ∀ (sh' : Shell W N) (name : Bytes) (words : List Bytes), sh'.frame = sh.frame →
      Always (Contained sh) (do
        let answer ← forLoop exec name body words
          { shell := sh'.setLoopDepth (sh'.context.loopDepth + 1) }
        some { answer with shell := answer.shell.setLoopDepth sh'.context.loopDepth }) := by
    intro sh' name words hframe
    refine Always.bind (contained_forLoop hexec name body words sh' _ ⟨rfl, .of_none rfl⟩)
      fun a ha => .some (ha.leave.of_frame hframe)
  unfold forClause
  dsimp only
  split
  · exact .some (.of_none (frame_on _ _) rfl)
  · cases words with
    | none => exact hloop _ _ _ (frame_on _ _)
    | some words =>
      have hwords : (forWords env ((env.prepareWord name .redirection).on sh).2 words []).2.frame
          = sh.frame := (frame_forWords words _ []).trans (frame_on _ _)
      dsimp only
      split
      · exact .some (.of_none hwords rfl)
      · exact hloop _ _ _ hwords
  · exact .some (.of_none (frame_on _ _) rfl)

theorem frame_casePatterns (word : Bytes) (patterns : List N) (sh : Shell W N) :
    (casePatterns env word sh patterns).2.frame = sh.frame := by
  induction patterns generalizing sh with
  | nil => rfl
  | cons pattern patterns ih =>
    unfold casePatterns
    dsimp only
    split
    · exact frame_on _ _
    · split
      · exact frame_on _ _
      · exact (ih _).trans (frame_on _ _)

theorem contained_caseItems (hexec : Containing exec) (word : Bytes)
    (items : List (List N × Plan N × Bool)) (fallthrough : Bool) (sh : Shell W N)
    (answer : Answer W N) (h : Contained sh answer) :
    Always (Contained sh) (caseItems env exec word fallthrough items answer) := by
  induction items generalizing fallthrough answer with
  | nil => exact .some h
  | cons item items ih =>
    unfold caseItems
    dsimp only
    have hpatterns : (if fallthrough then (.ok true, answer.shell)
        else casePatterns env word answer.shell item.1 : Except Failure Bool × Shell W N).2.frame
        = sh.frame := by
      split
      · exact h.1
      · exact (frame_casePatterns _ _ _).trans h.1
    split
    · exact .some ⟨hpatterns, h.2⟩
    · exact ih false _ ⟨hpatterns, h.2⟩
    · refine Always.bind (P := Contained sh) ?_ fun ran hran => ?_
      · split
        · exact (hexec _ _).imp fun a ha => ha.of_frame hpatterns
        · exact .some ⟨hpatterns, h.2⟩
      · split
        · exact .some hran
        · exact ih true _ hran

theorem contained_caseClause (hexec : Containing exec) (sh : Shell W N) (word : N)
    (items : List (List N × Plan N × Bool)) :
    Always (Contained sh) (caseClause env exec sh word items) := by
  unfold caseClause
  dsimp only
  split
  · exact .some (.of_none (frame_on _ _) rfl)
  · exact contained_caseItems hexec _ items false sh _ (.of_none (frame_on _ _) rfl)

theorem contained_redirectedBody (tree : N) (body : Shell W N → Option (Answer W N))
    (hbody : ∀ sh, Always (Contained sh) (body sh)) (sh : Shell W N) :
    Always (Contained sh) (redirectedBody env tree body sh) := by
  unfold redirectedBody
  dsimp only
  have hframe : (if env.hasRedirects tree then
      (((env.redirects tree {}).on sh).1.1, ((env.redirects tree {}).on sh).2)
      else (.applied, sh) : Redirected × Shell W N).2.frame = sh.frame := by
    split
    · exact frame_on _ _
    · rfl
  split
  · exact .some (.of_none hframe rfl)
  · exact .some (.of_none hframe rfl)
  · refine Always.bind (hbody _) fun a ha => ?_
    have ha' : Contained sh a := ha.of_frame hframe
    have hfailed : Contained sh (if a.failure.isSome then
        { a with result := expansionFailed a.shell a.result } else a) := by
      split <;> exact ha'
    split
    · exact .some ⟨(frame_query _ _).trans hfailed.1, hfailed.2⟩
    · exact .some hfailed

/-! ### Forked execution -/

theorem contained_collect (fuel : ℕ) (jobs pipefail negated : Bool) (stages : List (Plan N))
    (ended : ℕ → Ended) (forked sh : Shell W N) (result : Execution) (h : result.control = .none) :
    Always (fun a => Contained sh a ∧ a.result.control = .none)
      (collect env exec fuel jobs pipefail negated stages ended forked sh result) := by
  unfold collect
  -- nothing but a status and a world comes out of a child process
  exact Always.bind (P := fun _ => True) (fun _ _ => trivial) fun r _ =>
    .some ⟨.of_none rfl h, h⟩

theorem contained_contextJob (fuel : ℕ) (plan : Plan N) (asynchronous : Bool) (sh : Shell W N) :
    Always (Contained sh) (contextJob env exec fuel plan asynchronous sh) := by
  unfold contextJob
  dsimp only
  split
  · exact .some (.of_none (frame_query _ _) rfl)
  · split
    · exact .some (.of_none ((frame_withState (State.depths_setBackground _ _)).trans
        (frame_query _ _)) rfl)
    · split
      · exact .some (.of_none (by simp) rfl)
      · exact .some (.of_none (by simp) rfl)
      · exact (contained_collect _ _ _ _ _ _ _ _ _ rfl).imp fun a ha => ha.1.of_frame rfl

theorem contained_contextPipeline (hexec : Containing exec) (fuel : ℕ) (negated : Bool)
    (first : Plan N) (rest : List (Plan N)) (asynchronous : Bool) (sh : Shell W N) :
    Always (Contained sh) (contextPipeline env exec fuel negated first rest asynchronous sh) := by
  unfold contextPipeline
  dsimp only
  split
  · refine Always.bind (hexec sh first) fun a ha => .some ?_
    unfold Answer.inverted
    split
    · split <;> exact ha
    · exact ha
  · split
    · exact contained_contextJob fuel _ asynchronous sh
    · split
      · exact .some (.of_none (frame_query _ _) rfl)
      · split
        · refine .some (.of_none ?_ rfl)
          rw [frame_setStatus, frame_withState (State.depths_setBackground _ _), frame_query]
        · split
          · exact .some (.of_none (by simp) rfl)
          · exact (contained_collect _ _ _ _ _ _ _ _ _ rfl).imp fun a ha => ha.1.of_frame rfl

theorem contained_contextFork (hexec : Containing exec) (fuel : ℕ) (plan : Plan N)
    (asynchronous : Bool) (sh : Shell W N) :
    Always (Contained sh) (contextFork env exec fuel plan asynchronous sh) := by
  unfold contextFork
  split
  · exact contained_contextJob fuel plan asynchronous sh
  · split
    · exact contained_contextPipeline hexec fuel _ _ _ true sh
    · dsimp only
      split
      · exact .some (.of_none (frame_query _ _) rfl)
      · split
        · refine .some (.of_none ?_ rfl)
          rw [frame_setStatus, frame_withState (State.depths_setBackground _ _), frame_query]
        · split
          · exact .some (.of_none (by simp) rfl)
          · exact (contained_collect _ _ _ _ _ _ _ _ _ rfl).imp fun a ha => ha.1.of_frame rfl

/-! ### Nodes -/

theorem contained_listItems (hexec : Containing exec) (fuel : ℕ) (items : List (Bool × Plan N))
    (sh : Shell W N) (answer : Answer W N) (h : Contained sh answer) :
    Always (Contained sh) (listItems env exec fuel items answer) := by
  induction items generalizing answer with
  | nil => exact .some h
  | cons item items ih =>
    unfold listItems
    dsimp only
    refine Always.bind (P := Contained sh) ?_ fun ran hran => ?_
    · split
      · exact (contained_contextFork hexec fuel _ true _).imp fun a ha => ha.of_frame h.1
      · exact (hexec _ _).imp fun a ha => ha.of_frame h.1
    · split
      · exact .some hran
      · have hreaped : Contained sh { ran with shell := (Query.on env.reap ran.shell).2 } :=
          ⟨(frame_query _ _).trans hran.1, hran.2⟩
        split
        · exact .some hreaped
        · exact ih _ hreaped

theorem contained_andOr (hexec : Containing exec) (wanted : Bool) (left right : Plan N)
    (sh : Shell W N) : Always (Contained sh) (andOr exec wanted left right sh) := by
  unfold andOr
  refine Always.bind (contained_executeTest hexec sh left) fun test htest => ?_
  split
  · exact (hexec test.shell right).imp fun a ha => ha.of_frame htest.1
  · exact .some htest

theorem contained_pipelineNode (hexec : Containing exec) (fuel : ℕ) (negated : Bool)
    (first : Plan N) (rest : List (Plan N)) (sh : Shell W N) :
    Always (Contained sh) (pipelineNode env exec fuel negated first rest sh) := by
  unfold pipelineNode
  refine Always.bind (contained_contextPipeline hexec fuel negated first rest false _)
    fun a ha => .some ?_
  cases negated with
  | true => exact ⟨frame_setErrexitIgnored ha.1, ha.2⟩
  | false =>
    have hframe : a.shell.frame = (sh.setErrexitIgnored sh.state.info.errexitIgnored).frame := ha.1
    exact ⟨frame_setErrexitIgnored hframe, ha.2⟩

theorem contained_planBody (hexec : Containing exec) (fuel : ℕ) (sh : Shell W N) (plan : Plan N) :
    Always (Contained sh) (planBody env exec fuel sh plan) := by
  cases plan with
  | simple tree => exact contained_runtimeSimple hexec fuel false sh tree
  | list items => exact contained_listItems hexec fuel items sh _ (.of_none rfl rfl)
  | and left right => exact contained_andOr hexec true left right sh
  | or left right => exact contained_andOr hexec false left right sh
  | subshell tree body => exact contained_contextFork hexec fuel _ false sh
  | function tree name body =>
    have hframe : (defineFunction env sh tree name body).2.frame = sh.frame :=
      frame_defineFunction sh tree name body
    simp only [planBody]
    split
    · rename_i heq
      rw [heq] at hframe
      exact .some (.of_none hframe rfl)
    · rename_i heq
      rw [heq] at hframe
      exact .some (.of_none hframe rfl)
  | brace tree body => exact contained_redirectedBody tree _ (fun sh => hexec sh body) sh
  | ifClause tree branches otherwise =>
    exact contained_redirectedBody tree _
      (fun sh => contained_ifBranches hexec otherwise branches sh {} rfl) sh
  | forClause tree name words body =>
    exact contained_redirectedBody tree _
      (fun sh => contained_forClause hexec sh name words body) sh
  | loop tree isWhile condition body =>
    exact contained_redirectedBody tree _
      (fun sh => contained_whileClause hexec fuel isWhile condition body sh) sh
  | caseClause tree word items =>
    exact contained_redirectedBody tree _ (fun sh => contained_caseClause hexec sh word items) sh
  | pipeline negated first rest => exact contained_pipelineNode hexec fuel negated first rest sh

theorem control_applyErrexit (sh : Shell W N) (plan : Plan N) (result : Execution) :
    (applyErrexit sh plan result).control = result.control ∧
      (applyErrexit sh plan result).levels = result.levels := by
  unfold applyErrexit
  cases plan <;> dsimp only <;> split <;> split <;> exact ⟨rfl, rfl⟩

theorem contained_planEnd (hexec : Containing exec) (fuel : ℕ) (plan : Plan N)
    {answer : Answer W N} (h : Contained sh answer) :
    Always (Contained sh) (planEnd env exec fuel plan answer) := by
  unfold planEnd
  dsimp only
  have hfail := contained_failStatus h
  have hreported : Contained sh (if answer.failStatus.failure.isSome &&
      answer.failStatus.result.redirectionFailed then
        { answer.failStatus with
          failure := none
          result := { answer.failStatus.result with redirectionFailed := false } }
      else answer.failStatus) := by
    split <;> exact hfail
  generalize (if answer.failStatus.failure.isSome && answer.failStatus.result.redirectionFailed then
      { answer.failStatus with
        failure := none
        result := { answer.failStatus.result with redirectionFailed := false } }
    else answer.failStatus : Answer W N) = reported at hreported ⊢
  have happlied : Bounded sh.frame (applyErrexit reported.shell plan reported.result) := by
    obtain ⟨hcontrol, hlevels⟩ := control_applyErrexit reported.shell plan reported.result
    simpa [Bounded, hcontrol, hlevels] using hreported.2
  have hsettled := contained_settled (a := { reported with
    result := applyErrexit reported.shell plan reported.result }) ⟨hreported.1, happlied⟩
  refine Always.bind (contained_executePendingTraps hexec fuel _ _ ?_) fun a ha => .some ?_
  · rw [hsettled.1]
    exact hsettled.2
  · exact ha.of_frame hsettled.1

theorem contained_planStep (hexec : Containing exec) (fuel : ℕ) (sh : Shell W N) (plan : Plan N) :
    Always (Contained sh) (planStep env exec fuel sh plan) := by
  unfold planStep
  dsimp only
  split
  · exact .some (.of_none (frame_query _ _) rfl)
  · split
    · exact .some (.of_none (frame_query _ _) rfl)
    · refine Always.bind (contained_planBody hexec fuel _ plan) fun a ha => ?_
      exact contained_planEnd hexec fuel plan (ha.of_frame (frame_query _ _))

end Callbacks

/-- **Every node is contained**: it gives back the counters and flags it found, and a
transfer it reports fits them. -/
theorem contained_executePlan (env : Env W N) (fuel : ℕ) : Containing (executePlan env fuel) := by
  induction fuel with
  | zero => exact fun _ _ => .none _
  | succ fuel ih => exact contained_planStep ih fuel

/-- The name of a function is not one of a control builtin. -/
theorem controlName_of_function {env : Env W N} {name : Bytes} {command : Command}
    (h : (commandCategory env sh name command).1 = .function) : controlName name = false := by
  by_contra hname
  have hcontrol : controlName name = true := by simpa using hname
  simp [commandCategory, hcontrol] at h

/-- **Control transfers never leak.**  For every node: a loop transfer names between
one and all of the enclosing loops, `return` needs a function or a dot script, and
the counters are those found.  A command resolved to a function transfers nowhere
and gives back the positional parameters; a dot script does not pass `return` on and
gives them back if it was given its own.  Outside every loop, function and dot script
no transfer is left. -/
theorem transfers_contained (env : Env W N) (fuel : ℕ) :
    (∀ sh plan a, executePlan env fuel sh plan = some a →
      (a.result.control = .breakLoop ∨ a.result.control = .continueLoop →
        1 ≤ a.result.levels ∧ a.result.levels ≤ sh.context.loopDepth) ∧
      (a.result.control = .returnCall →
        0 < sh.state.info.functionDepth ∨ 0 < sh.state.info.sourceDepth) ∧
      a.shell.context.loopDepth = sh.context.loopDepth ∧
      a.shell.state.info.functionDepth = sh.state.info.functionDepth ∧
      a.shell.state.info.sourceDepth = sh.state.info.sourceDepth ∧
      a.shell.state.info.errexitIgnored = sh.state.info.errexitIgnored) ∧
    (∀ n sh sh₀ command₀ command name args a, command.argv = name :: args →
      (commandCategory env sh₀ name command₀).1 = .function →
      executeResolved env (executePlan env fuel) n sh command .function .bootstrap = some a →
      a.result.control = .none ∧
      a.shell.state.arguments = sh.state.arguments ∧
      a.shell.state.info.argumentCount = sh.state.info.argumentCount) ∧
    (∀ n sh command category args a, command.argv = ascii "." :: args → category ≠ .function →
      executeResolved env (executePlan env fuel) n sh command category .bootstrap = some a →
      a.result.control ≠ .returnCall ∧
      (1 < (skipDashes args).length →
        a.shell.state.arguments = sh.state.arguments ∧
        a.shell.state.info.argumentCount = sh.state.info.argumentCount)) ∧
    (∀ sh plan a, sh.context.loopDepth = 0 → sh.state.info.functionDepth = 0 →
      sh.state.info.sourceDepth = 0 →
      executeContextAst env (executePlan env fuel) sh plan = some a → a.result.control = .none) := by
  have hexec := contained_executePlan env fuel
  refine ⟨?_, ?_, ?_, ?_⟩
  · intro sh plan a ha
    obtain ⟨hframe, htransfer, hreturn⟩ := hexec sh plan a ha
    have hdepths := congrArg Frame.depths hframe
    simp only [Shell.frame, State.depths, Depths.mk.injEq] at hdepths
    exact ⟨htransfer, hreturn, congrArg (fun f => f.context.loopDepth) hframe, hdepths.2.1,
      hdepths.1, hdepths.2.2⟩
  · intro n sh sh₀ command₀ command name args a hargv hfunction ha
    have hname : ∀ name' ∈ command.argv.head?, controlName name' = false := by
      intro name' hmem
      rw [hargv, List.head?_cons, Option.mem_some_iff] at hmem
      rw [← hmem]
      exact controlName_of_function hfunction
    exact (executeResolved_call hexec n sh command hname a ha).2
  · intro n sh command category args a hargv hcategory ha
    obtain ⟨-, hreturn, hown⟩ := executeResolved_dot hexec n sh command category args hargv
      hcategory a ha
    exact ⟨hreturn, fun hlength => hown (by simpa using hlength)⟩
  · intro sh plan a hloops hfunction hsource ha
    obtain ⟨-, htransfer, hreturn⟩ := contained_executeContextAst hexec sh plan a ha
    simp only [Shell.frame, State.depths, hloops, hfunction, hsource] at htransfer hreturn
    cases hc : a.result.control with
    | none => rfl
    | breakLoop =>
      have := htransfer (.inl hc)
      omega
    | continueLoop =>
      have := htransfer (.inr hc)
      omega
    | returnCall =>
      have := hreturn hc
      omega

/-- The bounds at `break 7` inside two loops: both are left, no more. -/
theorem transfers_contained_break :
    ∃ a, executePlan Env.truth 8 ((Shell.fresh 0).setLoopDepth 2) (words ["break", "7"]) = some a ∧
      a.result.control = .breakLoop ∧ 1 ≤ a.result.levels ∧ a.result.levels ≤ 2 := by
  obtain ⟨a, ha, hcontrol⟩ : ∃ a, executePlan Env.truth 8 ((Shell.fresh 0).setLoopDepth 2)
      (words ["break", "7"]) = some a ∧ a.result.control = .breakLoop := ⟨_, rfl, rfl⟩
  exact ⟨a, ha, hcontrol, ((transfers_contained Env.truth 8).1 _ _ a ha).1 (.inl hcontrol)⟩

end Execute

end CShell
