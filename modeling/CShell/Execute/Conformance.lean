import CShell.Execute.Leaves

/-!
# Control flow and `errexit`

The two statements about whole runs that the simulation is for.  Without `errexit`
the executor does what the reference does, command by command.  With it, the record
of a run asks for the exit exactly if a command `errexit` looks at failed outside
every condition, and that command was the last one.

## Main definitions

* `Logged` — a report whose outcome is in accord with its events.

## Main results

* `logged_reference` — the reference exits on the first event that demands it.
* `controlFlow_agrees` — **control flow without `errexit`.**
* `errexit_exact` — **`errexit` exits exactly where it should.**
-/

namespace CShell.Execute

open Fuel List

variable {W N : Type}

/-! ### Events and exits -/

/-- The outcomes that ask for the exit. -/
def Outcome.isExited : Outcome → Bool
  | .exited _ => true
  | _ => false

theorem Encodes.exitRequested_iff {a : Answer W N} {o : Outcome} {sh : Shell W N}
    (h : Encodes a o sh) : a.result.exitRequested = true ↔ o.isExited = true := by
  have houtcome := h.outcome
  unfold Answer.outcome at houtcome
  cases hcontrol : a.result.control with
  | none =>
    rw [hcontrol] at houtcome
    dsimp only at houtcome
    split at houtcome
    · rename_i hexit
      simp [← houtcome, hexit, Outcome.isExited]
    · rename_i hexit
      split at houtcome <;> simp [← houtcome, hexit, Outcome.isExited]
  | breakLoop | continueLoop | returnCall =>
    have hexit := (h.transfer (by simp [hcontrol])).1
    rw [hcontrol] at houtcome
    simp [← houtcome, hexit, Outcome.isExited]

/-- Nothing demanded the exit and it was not asked for, or the last event did. -/
def Logged (r : Report W N) : Prop :=
  (r.outcome.isExited = false ∧ ∀ event ∈ r.events, event.demanding = false) ∨
    (r.outcome.isExited = true ∧ ∃ before event, r.events = before ++ [event] ∧
      event.demanding = true ∧ ∀ earlier ∈ before, earlier.demanding = false)

theorem logged_halt {o : Outcome} (h : o.isExited = false) (sh : Shell W N) :
    Always Logged (halt o sh) := .some (.inl ⟨h, by simp⟩)

/-- What follows a command that asked for the exit must do nothing. -/
theorem logged_follow {first : Option (Report W N)}
    {after : Outcome → Shell W N → Option (Report W N)} (hfirst : Always Logged first)
    (hexit : ∀ status sh, ∃ sh', after (.exited status) sh = halt (.exited status) sh')
    (hafter : ∀ o sh, o.isExited = false → Always Logged (after o sh)) :
    Always Logged (follow first after) := by
  unfold follow
  refine Always.bind hfirst fun r hr => ?_
  rcases hr with ⟨hnot, hquiet⟩ | ⟨hexited, hlast⟩
  · refine Always.bind (hafter _ r.shell hnot) fun last hlast => .some ?_
    rcases hlast with ⟨hnot', hquiet'⟩ | ⟨hexited, before, event, hevents, hdemands, hbefore⟩
    · refine .inl ⟨hnot', fun event hevent => ?_⟩
      rcases mem_append.mp hevent with h | h
      · exact hquiet event h
      · exact hquiet' event h
    · refine .inr ⟨hexited, r.events ++ before, event, ?_, hdemands, fun earlier hearlier => ?_⟩
      · rw [hevents, append_assoc]
      · rcases mem_append.mp hearlier with h | h
        · exact hquiet earlier h
        · exact hbefore earlier h
  · cases hr : r.outcome with
    | exited status =>
      obtain ⟨sh', hhalt⟩ := hexit status r.shell
      rw [hhalt]
      exact .some (.inr ⟨rfl, by simpa using hlast⟩)
    | finished _ | aborted _ | returning _ | breaking _ | continuing _ =>
      rw [hr] at hexited
      cases hexited

theorem logged_inside {frame : Frame → Frame} {run : Shell W N → Option (Report W N)}
    (h : ∀ sh, Always Logged (run sh)) (sh : Shell W N) : Always Logged (inside frame run sh) := by
  unfold inside
  exact Always.bind (h _) fun r hr => .some hr

/-- An event demands the exit exactly if its outcome was turned into one. -/
theorem isExited_demanded (o : Outcome) (tested : Bool) :
    (if (!tested) = true then o.demanded else o).isExited = Event.demanding ⟨o, tested⟩ := by
  have hturned : ∀ (status : ℤ) (passed : Outcome), passed.isExited = false →
      (if status ≠ 0 then .exited status else passed : Outcome).isExited = decide (status ≠ 0) := by
    intro status passed hpassed
    by_cases hstatus : status = 0
    · simp [hstatus, hpassed]
    · simp [hstatus, Outcome.isExited]
  cases tested with
  | true => cases o <;> simp [Outcome.isExited, Event.demanding]
  | false =>
    cases o with
    | finished status =>
      simpa [Event.demanding, Outcome.demanded] using hturned status (.finished status) rfl
    | aborted status =>
      simpa [Event.demanding, Outcome.demanded] using hturned status (.aborted status) rfl
    | exited _ | returning _ | breaking _ | continuing _ => rfl

theorem isExited_turn {o o' : Outcome} (h : o.isExited = false) (hturn : o.turn = .ended o') :
    o'.isExited = false := by
  unfold Outcome.turn at hturn
  split at hturn <;> cases hturn <;> first | rfl | exact h

section Callbacks

variable {env : Env W N} {leaf : ℕ → Bool → Shell W N → N → Option (Outcome × Shell W N)}
  {run : Shell W N → Plan N → Option (Report W N)}

theorem logged_test (hrun : ∀ sh plan, Always Logged (run sh plan)) (sh : Shell W N)
    (plan : Plan N) : Always Logged (Reference.test run sh plan) :=
  logged_inside (fun sh => hrun sh plan) sh

theorem logged_andOr (hrun : ∀ sh plan, Always Logged (run sh plan)) (wanted : Bool)
    (left right : Plan N) (sh : Shell W N) :
    Always Logged (Reference.andOr run wanted left right sh) := by
  unfold Reference.andOr
  refine logged_follow (logged_test hrun sh left) (fun _ sh' => ⟨sh', rfl⟩) fun o sh' ho => ?_
  cases o with
  | finished status =>
    dsimp only
    split
    · exact hrun _ _
    · exact logged_halt ho _
  | aborted _ | exited _ | returning _ | breaking _ | continuing _ => exact logged_halt ho _

theorem logged_ifBranches (hrun : ∀ sh plan, Always Logged (run sh plan))
    (otherwise : Option (Plan N)) (branches : List (Plan N × Plan N)) (sh : Shell W N) :
    Always Logged (Reference.ifBranches run otherwise sh branches) := by
  induction branches generalizing sh with
  | nil =>
    unfold Reference.ifBranches
    cases otherwise with
    | none => exact logged_halt rfl _
    | some body => exact hrun _ _
  | cons branch branches ih =>
    unfold Reference.ifBranches
    refine logged_follow (logged_test hrun sh _) (fun _ sh' => ⟨sh', rfl⟩) fun o sh' ho => ?_
    cases o with
    | finished status =>
      dsimp only
      split
      · exact hrun _ _
      · exact ih _
    | aborted _ | exited _ | returning _ | breaking _ | continuing _ => exact logged_halt ho _

theorem logged_loop (hrun : ∀ sh plan, Always Logged (run sh plan)) (isWhile : Bool)
    (condition body : Plan N) (fuel : ℕ) (last : ℤ) (sh : Shell W N) :
    Always Logged (Reference.loop run isWhile condition body fuel last sh) := by
  induction fuel generalizing last sh with
  | zero => exact .none _
  | succ fuel ih =>
    unfold Reference.loop
    refine logged_follow (logged_test hrun sh _) (fun _ sh' => ⟨sh', rfl⟩) fun o sh' ho => ?_
    split
    · rename_i hturn
      exact logged_halt (isExited_turn ho hturn) _
    · exact ih _ _
    · split
      · exact logged_halt rfl _
      · refine logged_follow (hrun _ _) (fun _ sh' => ⟨sh', rfl⟩) fun o sh' ho => ?_
        split
        · rename_i hturn
          exact logged_halt (isExited_turn ho hturn) _
        · exact ih _ _
        · exact ih _ _

theorem logged_forLoop (hrun : ∀ sh plan, Always Logged (run sh plan)) (name : Bytes)
    (body : Plan N) (words : List Bytes) (last : ℤ) (sh : Shell W N) :
    Always Logged (Reference.forLoop run name body words last sh) := by
  induction words generalizing last sh with
  | nil => exact logged_halt rfl _
  | cons word words ih =>
    unfold Reference.forLoop
    refine logged_follow (hrun _ _) (fun _ sh' => ⟨sh', rfl⟩) fun o sh' ho => ?_
    split
    · rename_i hturn
      exact logged_halt (isExited_turn ho hturn) _
    · exact ih _ _
    · exact ih _ _

theorem logged_caseItems (hrun : ∀ sh plan, Always Logged (run sh plan)) (word : Bytes)
    (items : List (List N × Plan N × Bool)) (fallthrough : Bool) (last : ℤ) (sh : Shell W N) :
    Always Logged (Reference.caseItems env run word fallthrough items last sh) := by
  induction items generalizing fallthrough last sh with
  | nil => exact logged_halt rfl _
  | cons item items ih =>
    obtain ⟨patterns, body, falls⟩ := item
    unfold Reference.caseItems
    dsimp only
    generalize (if fallthrough = true then (.ok true, sh)
      else casePatterns env word sh patterns : Except Failure Bool × Shell W N) = asked
    split
    · refine logged_follow ?_ (fun _ sh' => ⟨sh', rfl⟩) fun o sh' ho => ?_
      · split
        · exact hrun _ _
        · exact logged_halt rfl _
      · cases o with
        | finished status =>
          dsimp only
          split
          · exact ih _ _ _
          · exact logged_halt ho _
        | aborted _ | exited _ | returning _ | breaking _ | continuing _ => exact logged_halt ho _
    · exact ih _ _ _

theorem logged_redirected (tree : N) {body : Shell W N → Option (Report W N)}
    (hbody : ∀ sh, Always Logged (body sh)) (sh : Shell W N) :
    Always Logged (Reference.redirected env tree body sh) := by
  unfold Reference.redirected
  split
  · exact logged_follow (hbody _) (fun _ _ => ⟨_, rfl⟩) fun o sh' ho => logged_halt ho _
  · exact hbody sh

theorem logged_listItems (hrun : ∀ sh plan, Always Logged (run sh plan))
    (items : List (Bool × Plan N)) (last : ℤ) (sh : Shell W N) :
    Always Logged (Reference.listItems env run items last sh) := by
  induction items generalizing last sh with
  | nil => exact logged_halt rfl _
  | cons item items ih =>
    obtain ⟨asynchronous, plan⟩ := item
    unfold Reference.listItems
    refine logged_follow ?_ (fun _ sh' => ⟨sh', rfl⟩) fun o sh' ho => ?_
    · split
      · exact logged_halt rfl _
      · exact hrun _ _
    · cases o with
      | finished status => exact ih _ _
      | aborted _ | exited _ | returning _ | breaking _ | continuing _ => exact logged_halt ho _

/-- The commands `errexit` looks at leave no events of their own parts, which ran in
other processes. -/
theorem silent_forkStages (fuel : ℕ) (negated : Bool) (stages : List (Plan N)) (sh : Shell W N) :
    Always (fun r => r.outcome.isExited = false ∧ r.events = [])
      (Reference.forkStages env leaf run fuel negated stages sh) := by
  unfold Reference.forkStages
  dsimp only
  exact Always.bind (P := fun _ => True) (fun _ _ => trivial) fun _ _ => .some ⟨rfl, rfl⟩

theorem logged_pipeline (hrun : ∀ sh plan, Always Logged (run sh plan)) (fuel : ℕ)
    (negated : Bool) (first : Plan N) (rest : List (Plan N)) (sh : Shell W N) :
    Always Logged (Reference.pipeline env leaf run fuel negated first rest sh) := by
  unfold Reference.pipeline
  dsimp only
  split
  · refine logged_follow (logged_inside (fun sh => hrun sh first) sh) (fun status sh' => ?_)
      fun o sh' ho => ?_
    · exact ⟨sh', by cases negated <;> rfl⟩
    · apply logged_halt
      cases negated with
      | false => exact ho
      | true => cases o <;> first | rfl | exact ho
  · refine logged_inside (fun sh => ?_) sh
    refine (silent_forkStages fuel negated (first :: rest) sh).imp fun r hr => .inl ⟨hr.1, ?_⟩
    simp [hr.2]

/-- A command `errexit` does not look at is in accord with the events of its parts. -/
theorem logged_command (hrun : ∀ sh plan, Always Logged (run sh plan)) (fuel : ℕ) (sh : Shell W N)
    (plan : Plan N) (hobserved : Reference.observed plan = false) :
    Always Logged (Reference.command env leaf run fuel sh plan) := by
  cases plan with
  | simple _ => cases hobserved
  | subshell _ _ => cases hobserved
  | pipeline negated first rest => exact logged_pipeline hrun fuel negated first rest sh
  | and left right => exact logged_andOr hrun true left right sh
  | or left right => exact logged_andOr hrun false left right sh
  | list items => exact logged_listItems hrun items 0 sh
  | function tree name body => exact logged_halt rfl _
  | brace tree body => exact logged_redirected tree (fun sh => hrun sh body) sh
  | ifClause tree branches otherwise =>
    exact logged_redirected tree (fun sh => logged_ifBranches hrun otherwise branches sh) sh
  | forClause tree name words body =>
    refine logged_redirected tree (fun sh => ?_) sh
    exact logged_inside (logged_forLoop hrun _ body _ 0) _
  | loop tree isWhile condition body =>
    refine logged_redirected tree (fun sh => ?_) sh
    exact logged_inside (logged_loop hrun isWhile condition body fuel 0) _
  | caseClause tree word items =>
    refine logged_redirected tree (fun sh => ?_) sh
    exact logged_caseItems hrun _ items false 0 _

/-- A command `errexit` looks at has no events but the one at its end. -/
theorem silent_command (fuel : ℕ) (sh : Shell W N) (plan : Plan N)
    (hobserved : Reference.observed plan = true) :
    Always (fun r => r.events = []) (Reference.command env leaf run fuel sh plan) := by
  cases plan with
  | simple tree =>
    intro r hr
    obtain ⟨given, -, rfl⟩ := Option.map_eq_some_iff.mp hr
    rfl
  | subshell tree body => exact (silent_forkStages fuel false _ sh).imp fun _ h => h.2
  | pipeline negated first rest =>
    cases rest with
    | nil =>
      cases negated <;> cases hobserved
    | cons second rest =>
      unfold Reference.command Reference.pipeline inside
      exact Always.bind (silent_forkStages fuel negated _ _) fun _ h => .some h.2
  | and _ _ | or _ _ | list _ | function _ _ _ | brace _ _ | ifClause _ _ _ | forClause _ _ _ _
  | loop _ _ _ _ | caseClause _ _ _ => cases hobserved

theorem logged_step (hrun : ∀ sh plan, Always Logged (run sh plan)) (fuel : ℕ) (sh : Shell W N)
    (plan : Plan N) : Always Logged (Reference.step env leaf run true fuel sh plan) := by
  unfold Reference.step follow
  cases hobserved : Reference.observed plan with
  | false =>
    refine Always.bind (logged_command hrun fuel sh plan hobserved) fun r hr => ?_
    simp only [Reference.finish, Reference.events, hobserved, Bool.and_false, Bool.false_and,
      Bool.false_eq_true, if_false, Option.bind_eq_bind, Option.bind_some, append_nil]
    exact .some hr
  | true =>
    refine Always.bind (silent_command fuel sh plan hobserved) fun r hr => ?_
    simp only [Reference.finish, Reference.events, hobserved, Bool.and_true, Bool.true_and,
      if_true, Option.bind_eq_bind, Option.bind_some, hr, nil_append]
    refine .some ?_
    have hexited := isExited_demanded r.outcome (decide (r.shell.frame.depths.errexitIgnored ≠ 0))
    cases hdemands : Event.demanding
        ⟨r.outcome, decide (r.shell.frame.depths.errexitIgnored ≠ 0)⟩ with
    | false => exact .inl ⟨hexited.trans hdemands, by simpa using hdemands⟩
    | true => exact .inr ⟨hexited.trans hdemands, [], _, rfl, hdemands, by simp⟩

end Callbacks

/-- **The reference exits on the first event that demands it**, and on nothing else. -/
theorem logged_reference (env : Env W N)
    (leaf : ℕ → Bool → Shell W N → N → Option (Outcome × Shell W N)) (fuel : ℕ) :
    ∀ sh plan, Always Logged (reference env true leaf fuel sh plan) := by
  induction fuel with
  | zero => exact fun _ _ => .none _
  | succ fuel ih => exact logged_step ih fuel

theorem Logged.exits {r : Report W N} (h : Logged r) :
    (r.outcome.isExited = true ↔ ∃ event ∈ r.events, event.demanding = true) ∧
      ∀ before event after, r.events = before ++ event :: after → event.demanding = true →
        after = [] := by
  rcases h with ⟨hnot, hquiet⟩ | ⟨hexited, before, event, hevents, hdemands, hbefore⟩
  · refine ⟨⟨fun hexited => ?_, fun ⟨event, hevent, hdemands⟩ => ?_⟩, ?_⟩
    · rw [hnot] at hexited
      cases hexited
    · rw [hquiet event hevent] at hdemands
      cases hdemands
    · intro before event after hevents hdemands
      have hevent : event ∈ r.events := by simp [hevents]
      rw [hquiet event hevent] at hdemands
      cases hdemands
  · refine ⟨⟨fun _ => ⟨event, by simp [hevents], hdemands⟩, fun _ => hexited⟩, ?_⟩
    intro before' event' after' hsplit hdemands'
    rcases eq_nil_or_concat after' with rfl | ⟨most, last, rfl⟩
    · rfl
    · -- an event before the last one demands nothing
      have hsame : before = before' ++ event' :: most := by
        rw [hevents, concat_eq_append] at hsplit
        have hshape : before ++ [event] = (before' ++ event' :: most) ++ [last] := by
          simpa using hsplit
        exact (append_inj' hshape rfl).1
      have hmem : event' ∈ before := by simp [hsame]
      rw [hbefore event' hmem] at hdemands'
      cases hdemands'

/-! ### Whole runs -/

/-- A simple command that finished with a failure outside every condition. -/
theorem exits_simple {env : Env W N} {scope : Scope (Function N)} (hquiet : Quiet env true scope)
    {fuel : ℕ} {sh : Shell W N} (hready : Ready true scope sh.state) {tree : N} {a : Answer W N}
    {status : ℤ} {sh' : Shell W N}
    (hran : runtimeSimple env (executePlan env fuel) fuel false sh tree = some a)
    (henc : Encodes a (.finished status) sh') (hready' : Ready true scope sh'.state)
    (hstatus : status ≠ 0) (hdepth : sh.state.info.errexitIgnored = 0) :
    ∃ a, executePlan env (fuel + 1) sh (.simple tree) = some a ∧ a.result.exitRequested = true ∧
      a.result.status = status := by
  have hstack : Query.on env.stackExhausted sh = (false, sh) := by
    simp [Query.on, hquiet.stack]
  have hnoexec : sh.noexec = false := hready.noexec
  have hkept : Contained sh a :=
    contained_runtimeSimple (contained_executePlan env fuel) fuel false sh tree a hran
  have hframe : sh'.frame = sh.frame := by
    rw [← henc.shell]
    exact hkept.1
  have hdepth' : sh'.frame.depths.errexitIgnored = 0 := by
    rw [hframe]
    exact hdepth
  have hagrees : BodyAgrees true scope (.simple tree) sh a (.finished status) sh' := by
    refine ⟨henc, hframe, hready', fun hobserved => ?_, fun _ => .inl ⟨tree, rfl⟩⟩
    cases hobserved
  have hend := henc.applied (.simple tree)
  rw [demands_eq hagrees, hdepth'] at hend
  have hexited : Outcome.demanded (.finished status) = .exited status := if_pos hstatus
  refine ⟨_, ?_, hend.exitRequested_iff.mpr ?_, hend.status.trans ?_⟩
  · simp only [executePlan, planStep, hstack, hnoexec, Bool.false_eq_true, if_false, planBody, hran,
      Option.bind_eq_bind, Option.bind_some]
    exact planEnd_eq hquiet fuel (.simple tree) henc
  · simp [Reference.observed, hexited, Outcome.isExited]
  · simp [Reference.observed, hexited, Outcome.status]

/-- The variables and functions of the examples below. -/
def exampleScope : Scope (Function (List Bytes)) := ⟨[ascii "x"], Set.univ⟩

/-- A state that has no variables yet. -/
theorem ready_fresh {errexit : Bool} {options : UInt32} (hnoexec : hasBit options Opt.noexec = false)
    (herrexit : hasBit options Opt.errexit = errexit) :
    Ready errexit exampleScope (Shell.fresh options).state := by
  refine ⟨hnoexec, herrexit, fun name hname => ⟨?_, fun v hv => ?_⟩, trivial⟩
  · rw [mem_singleton.mp hname]
    decide
  · cases hv

theorem everywhere_words {errexit : Bool} (text : List String) :
    (words text).Everywhere (Settled Env.substituting errexit exampleScope substitutingLeaf) := by
  refine .intro (settled_substituting errexit exampleScope _) fun part hpart => ?_
  cases hpart

/-- `while ok; do for x in a b; do if fail; then ok; else break 7; fi; done; done`. -/
def nestedLoops : Plan (List Bytes) :=
  .loop [] true (words ["ok"]) (.forClause [] [ascii "x"] (some [[ascii "a", ascii "b"]])
    (.ifClause [] [(words ["fail"], words ["ok"])] (some (words ["break", "7"]))))

/-- **Control flow.**  Without `errexit`, with any leaves and any fuel, `executePlan` and
the reference interpreter answer together: the same outcome and status, no error, and
the same shell, hence the same effects in the same order.  Of the leaves, `break n` and
`continue n` act on the `n`-th enclosing loop or on the outermost one, and a function's
body is run as if no loop enclosed it. -/
theorem controlFlow_agrees {env : Env W N} {scope : Scope (Function N)}
    {leaf : ℕ → Bool → Shell W N → N → Option (Outcome × Shell W N)}
    (hquiet : Quiet env false scope) {plan : Plan N}
    (hplan : plan.Everywhere (Settled env false scope leaf)) :
    (∀ fuel sh, Ready false scope sh.state →
      Option.Rel (fun a r => a.failure = none ∧ a.outcome = r.outcome ∧
          a.result.status = r.outcome.status ∧ a.shell = r.shell)
        (executePlan env fuel sh plan) (reference env false leaf fuel sh plan)) ∧
    (∀ fuel direct sh tree command spent name args n, Plain env tree command spent →
      command.argv = name :: args → name = ascii "break" ∨ name = ascii "continue" →
      Levels args n → env.isJobsBuiltin name = false → sh.context.loopDepth ≠ 0 →
      ∃ a, runtimeSimple env (executePlan env fuel) (fuel + 1) direct sh tree = some a ∧
        a.outcome = Outcome.clamp sh.context.loopDepth
          (if name = ascii "break" then .breaking n else .continuing n)) ∧
    (∀ exec exec' : Shell W N → Plan N → Option (Answer W N),
      (∀ sh plan, sh.context.loopDepth = 0 → exec sh plan = exec' sh plan) →
      ∀ sh name args result, flowFunction env exec sh name args result
        = flowFunction env exec' sh name args result) := by
  refine ⟨fun fuel sh hready => ?_, ?_, ?_⟩
  · have hmatch := agrees_executePlan hquiet fuel hplan sh hready
    generalize executePlan env fuel sh plan = x at hmatch ⊢
    generalize reference env false leaf fuel sh plan = y at hmatch ⊢
    cases hmatch with
    | none => exact .none
    | some h =>
      exact .some ⟨h.encodes.failure, h.encodes.outcome, h.encodes.status, h.encodes.shell⟩
  · intro fuel direct sh tree command spent name args n hplain hargv hname hlevels hjobs hloop
    refine ⟨_, runtimeSimple_transfer hplain hargv hname hlevels hjobs fuel direct sh hloop, ?_⟩
    rcases hname with rfl | rfl
    · rfl
    · rfl
  · intro exec exec' hsame sh name args result
    have hcalled : ∀ (sh : Shell W N) plan, exec (sh.setLoopDepth 0) plan = exec' (sh.setLoopDepth 0) plan :=
      fun _ _ => hsame _ _ rfl
    unfold flowFunction
    simp only [hcalled]

/-- Control flow at two nested loops, both of which are left by `break 7`. -/
theorem controlFlow_agrees_nestedLoops :
    ∃ a, executePlan Env.substituting 9 (Shell.fresh 0) nestedLoops = some a ∧
      a.outcome = .finished 0 ∧ a.shell.world = ["ok", "fail", "break"].map ascii := by
  have hplan : nestedLoops.Everywhere
      (Settled Env.substituting false exampleScope substitutingLeaf) := by
    refine .intro trivial fun part hpart => ?_
    cases hpart with
    | loopCondition => exact everywhere_words _
    | loopBody =>
      refine .intro (fun _ _ _ => ⟨_, mem_singleton_self _, rfl⟩) fun part hpart => ?_
      cases hpart with
      | forBody =>
        refine .intro trivial fun part hpart => ?_
        cases hpart with
        | condition h =>
          rw [(Prod.mk.inj (mem_singleton.mp h)).1]
          exact everywhere_words _
        | branch h =>
          rw [(Prod.mk.inj (mem_singleton.mp h)).2]
          exact everywhere_words _
        | otherwise => exact everywhere_words _
  have hagrees := (controlFlow_agrees (quiet_substituting false exampleScope) hplan).1 9
    (Shell.fresh 0) (ready_fresh (by decide) (by decide))
  have hreference : (reference Env.substituting false substitutingLeaf 9 (Shell.fresh 0)
      nestedLoops).map (fun r => (r.outcome, r.shell.world))
        = some (.finished 0, ["ok", "fail", "break"].map ascii) := by
    decide
  generalize executePlan Env.substituting 9 (Shell.fresh 0) nestedLoops = x at hagrees ⊢
  generalize reference Env.substituting false substitutingLeaf 9 (Shell.fresh 0) nestedLoops = y
    at hagrees hreference
  cases hagrees with
  | none => cases hreference
  | @some a r h =>
    obtain ⟨houtcome, hworld⟩ := Prod.mk.inj (Option.some.inj hreference)
    exact ⟨a, rfl, h.2.1.trans houtcome, by rw [h.2.2.2]; exact hworld⟩

/-- **`errexit`.**  With any leaves and any fuel, the record of a run asks for the exit
exactly if one of the commands `errexit` looks at, in the order they ended, failed
outside every condition or asked for it itself, and nothing was run after that command.
The depth at which `errexit` is ignored is given back on every path.  A call of a
function whose body ends in a failure exits, however the body came by it. -/
theorem errexit_exact {env : Env W N} {scope : Scope (Function N)}
    {leaf : ℕ → Bool → Shell W N → N → Option (Outcome × Shell W N)}
    (hquiet : Quiet env true scope) {plan : Plan N}
    (hplan : plan.Everywhere (Settled env true scope leaf)) :
    (∀ fuel sh, Ready true scope sh.state →
      Option.Rel (fun a r => a.outcome = r.outcome ∧ a.shell = r.shell ∧
          (a.result.exitRequested = true ↔ ∃ event ∈ r.events, event.demanding = true) ∧
          ∀ before event after, r.events = before ++ event :: after → event.demanding = true →
            after = [])
        (executePlan env fuel sh plan) (reference env true leaf fuel sh plan)) ∧
    (∀ fuel sh plan a, executePlan env fuel sh plan = some a →
      a.shell.state.info.errexitIgnored = sh.state.info.errexitIgnored) ∧
    (∀ fuel sh tree command spent name args function r status, Ready true scope sh.state →
      Calls env tree command spent name args function → sh.state.function name = some function →
      (Plan.brace function.tree function.body).Everywhere (Settled env true scope leaf) →
      reference env true leaf (fuel + 1) (Reference.called args (sh.spend spent))
        (.brace function.tree function.body) = some r →
      r.outcome.returned = .finished status → status ≠ 0 → sh.state.info.errexitIgnored = 0 →
      ∃ a, executePlan env (fuel + 2) sh (.simple tree) = some a ∧ a.result.exitRequested = true ∧
        a.result.status = status) := by
  refine ⟨fun fuel sh hready => ?_, fun fuel sh plan a ha => ?_, ?_⟩
  · have hmatch := agrees_executePlan hquiet fuel hplan sh hready
    have hlogged := logged_reference env leaf fuel sh plan
    generalize executePlan env fuel sh plan = x at hmatch ⊢
    generalize reference env true leaf fuel sh plan = y at hmatch hlogged ⊢
    cases hmatch with
    | none => exact .none
    | @some a r h =>
      obtain ⟨hexits, hlast⟩ := (hlogged r rfl).exits
      exact .some ⟨h.encodes.outcome, h.encodes.shell, h.encodes.exitRequested_iff.trans hexits, hlast⟩
  · have hframe := (contained_executePlan env fuel sh plan a ha).1
    exact congrArg (fun frame => frame.depths.errexitIgnored) hframe
  · intro fuel sh tree command spent name args function r status hready hcalls hfunction hbody
      hran hreturned hstatus hdepth
    have hcall := leafAgrees_call hcalls hquiet (contained_executePlan env (fuel + 1))
      (agrees_executePlan hquiet (fuel + 1) hbody) fuel false sh hready hfunction
    rw [Reference.call, hran, Option.map_some, hreturned] at hcall
    generalize hsimple : runtimeSimple env (executePlan env (fuel + 1)) (fuel + 1) false sh tree = x
      at hcall
    cases hcall with
    | @some a _ hleaf =>
      rcases hleaf with ⟨henc, hready'⟩ | ⟨hdirect, -⟩
      · exact exits_simple hquiet hready hsimple henc hready' hstatus hdepth
      · cases hdirect

/-- `if fail; then ok; fi; { fail && ok; }; fail; ok`. -/
def thirdFailure : Plan (List Bytes) :=
  .list [(false, .ifClause [] [(words ["fail"], words ["ok"])] none),
    (false, .brace [] (.and (words ["fail"]) (words ["ok"]))),
    (false, words ["fail"]), (false, words ["ok"])]

/-- `errexit` at three failures: the first two are part of a condition, the third one
exits before the last command is run. -/
theorem errexit_exact_thirdFailure :
    ∃ a, executePlan Env.substituting 9 (Shell.fresh Opt.errexit) thirdFailure = some a ∧
      a.result.exitRequested = true ∧ a.shell.world = ["fail", "fail", "fail"].map ascii := by
  have hplan : thirdFailure.Everywhere
      (Settled Env.substituting true exampleScope substitutingLeaf) := by
    refine .intro trivial fun part hpart => ?_
    cases hpart with
    | item h =>
      simp only [mem_cons, not_mem_nil, or_false, Prod.mk.injEq] at h
      rcases h with ⟨-, rfl⟩ | ⟨-, rfl⟩ | ⟨-, rfl⟩ | ⟨-, rfl⟩
      · refine .intro trivial fun part hpart => ?_
        cases hpart with
        | condition h =>
          rw [(Prod.mk.inj (mem_singleton.mp h)).1]
          exact everywhere_words _
        | branch h =>
          rw [(Prod.mk.inj (mem_singleton.mp h)).2]
          exact everywhere_words _
      · refine .intro trivial fun part hpart => ?_
        cases hpart with
        | brace =>
          refine .intro trivial fun part hpart => ?_
          cases hpart with
          | andLeft => exact everywhere_words _
          | andRight => exact everywhere_words _
      · exact everywhere_words _
      · exact everywhere_words _
  have hexact := (errexit_exact (quiet_substituting true exampleScope) hplan).1 9
    (Shell.fresh Opt.errexit) (ready_fresh (by decide) (by decide))
  have hreference : (reference Env.substituting true substitutingLeaf 9 (Shell.fresh Opt.errexit)
      thirdFailure).map (fun r => (r.events, r.shell.world))
        = some ([⟨.finished 1, true⟩, ⟨.finished 1, true⟩, ⟨.finished 1, false⟩],
          ["fail", "fail", "fail"].map ascii) := by
    decide
  generalize executePlan Env.substituting 9 (Shell.fresh Opt.errexit) thirdFailure = x at hexact ⊢
  generalize reference Env.substituting true substitutingLeaf 9 (Shell.fresh Opt.errexit)
    thirdFailure = y at hexact hreference
  cases hexact with
  | none => cases hreference
  | @some a r h =>
    obtain ⟨hevents, hworld⟩ := Prod.mk.inj (Option.some.inj hreference)
    obtain ⟨-, hshell, hexits, -⟩ := h
    refine ⟨a, rfl, hexits.mpr ⟨⟨.finished 1, false⟩, ?_, rfl⟩, by rw [hshell]; exact hworld⟩
    simp [hevents]

end CShell.Execute
