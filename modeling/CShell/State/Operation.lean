import CShell.State.Reachable

/-!
# Operations on a state

The functions of `state.c` and `alias.c` that change a state, as one type, so that
a sequence of calls is a list.  What a caller keeps between two calls (saved
variables, displaced parameters, a checkpoint) is an argument of the operation
that gives it back.

## Main definitions

* `State.Operation F` — a call, with its arguments.
* `State.Operation.run op s` — what the call reports and the state it leaves.
* `State.Operation.Given op` — what the call gives back was taken from a
  reachable state.

## Main results

* `State.Operation.run_failed` — a call that reports failure changes nothing.
* `State.Reachable.runAll` — sequences of calls stay among the reachable states.
* `State.snapshots_exact` — **copies and checkpoints are exact.**
-/

namespace CShell

namespace State

variable {F : Type}

/-- A call of one of the functions that change a state.  A `NULL` in a parameter
vector is `none`. -/
inductive Operation (F : Type)
  | setVariable (name value : Bytes)
  | updateAttributes (name : Bytes) (set clear : UInt32)
  | unsetVariable (name : Bytes)
  | restoreVariables (saves : List VariableSave)
  | setParameters (arguments : List (Option Bytes))
  | pushParameters (arguments : List (Option Bytes))
  | popParameters (save : List Bytes × ℕ)
  | setStatus (status : ℤ)
  | setBackground (pid : ℤ)
  | updateOptions (set clear : UInt32)
  | setErrexitIgnored (depth : ℕ)
  | setFunctionDepth (depth : ℕ)
  | setSourceDepth (depth : ℕ)
  | setGetoptsOffset (offset : ℕ)
  | setFunction (name : Bytes) (function : Option F)
  | hashSet (name path : Bytes)
  | hashClear
  | withAliases
  | setAlias (name value : Bytes)
  | unsetAlias (name : Bytes)
  | clearAliases
  | manageLocale
  | clone
  | restore (checkpoint : State F)

namespace Operation

/-- Replace the alias table by what a function of `alias.c` makes of it; a table
nobody asked for yet is a `NULL` argument, which those functions reject. -/
def onAliases (s : State F) (f : List (Bytes × Bytes) → Option (List (Bytes × Bytes))) :
    StateResult × State F :=
  match s.aliases.bind f with
  | some aliases => (.ok, { s with aliases := some aliases })
  | none => (.invalid, s)

/-- What a call reports, and the state it leaves.  `clone` goes on with the copy, as
a child shell does. -/
def run : Operation F → State F → StateResult × State F
  | .setVariable name value, s => s.setVariable name value
  | .updateAttributes name set clear, s => s.updateAttributes name set clear
  | .unsetVariable name, s => s.unsetVariable name
  | .restoreVariables saves, s => (.ok, s.restoreVariables saves)
  | .setParameters arguments, s | .pushParameters arguments, s =>
    match arguments.mapM id with
    | some arguments => (.ok, s.setParameters arguments)
    | none => (.invalid, s)
  | .popParameters save, s => (.ok, s.popParameters save)
  | .setStatus status, s => s.setStatus status
  | .setBackground pid, s => s.setBackground pid
  | .updateOptions set clear, s => s.updateOptions set clear
  | .setErrexitIgnored depth, s => (.ok, s.setErrexitIgnored depth)
  | .setFunctionDepth depth, s => (.ok, s.setFunctionDepth depth)
  | .setSourceDepth depth, s => (.ok, s.setSourceDepth depth)
  | .setGetoptsOffset offset, s => (.ok, s.setGetoptsOffset offset)
  | .setFunction name function, s => s.setFunction name function
  | .hashSet name path, s => (.ok, s.hashSet name path)
  | .hashClear, s => (.ok, s.hashClear)
  | .withAliases, s => (.ok, s.withAliases)
  | .setAlias name value, s => onAliases s fun aliases => Alias.set aliases name value
  | .unsetAlias name, s => onAliases s fun aliases => Alias.unset aliases name
  | .clearAliases, s => (.ok, { s with aliases := s.aliases.map fun _ => [] })
  | .manageLocale, s => (.ok, { s with managesLocale := true })
  | .clone, s =>
    match s.clone with
    | some copy => (.ok, copy)
    | none => (.nomem, s)
  | .restore checkpoint, s => (.ok, s.restore checkpoint)

/-- The state after a sequence of calls. -/
def runAll (ops : List (Operation F)) (s : State F) : State F :=
  ops.foldl (fun s op => (op.run s).2) s

/-- What a call gives back was taken from a reachable state.  The other calls are
free to have any arguments. -/
def Given : Operation F → Prop
  | .restoreVariables saves =>
    ∃ (saved : State F) (names : List Bytes), saved.Reachable ∧ saves = (saved.saveVariables names).2
  | .popParameters save =>
    ∃ (saved : State F) (arguments : List Bytes),
      saved.Reachable ∧ save = (saved.pushParameters arguments).2
  | .restore checkpoint => ∃ saved : State F, saved.Reachable ∧ saved.save = some checkpoint
  | _ => True

/-! ### Failed calls -/

theorem onAliases_failed (s : State F)
    (f : List (Bytes × Bytes) → Option (List (Bytes × Bytes)))
    (h : (onAliases s f).1 ≠ .ok) : (onAliases s f).2 = s := by
  unfold onAliases at h ⊢
  split
  · next aliases hf =>
    rw [hf] at h
    exact absurd rfl h
  · rfl

theorem setVariable_failed {s : State F} {name value : Bytes}
    (h : (s.setVariable name value).1 ≠ .ok) : (s.setVariable name value).2 = s := by
  unfold State.setVariable at h ⊢
  split at h <;> rename_i hname
  · rw [if_pos hname]
  · rw [if_neg hname]
    split at h <;> rename_i hfind
    · split at h <;> rename_i hro
      · exact congrArg Prod.snd (if_pos hro)
      · exact absurd rfl h
    · exact absurd rfl h

theorem updateAttributes_failed {s : State F} {name : Bytes} {set clear : UInt32}
    (h : (s.updateAttributes name set clear).1 ≠ .ok) :
    (s.updateAttributes name set clear).2 = s := by
  unfold State.updateAttributes at h ⊢
  split at h <;> rename_i hname
  · rw [if_pos hname]
  · rw [if_neg hname]
    split at h <;> rename_i hfind
    · split at h <;> rename_i hro
      · exact congrArg Prod.snd (if_pos hro)
      · exact absurd rfl h
    · dsimp only at h
      split at h
      · exact absurd rfl h
      · exact absurd rfl h

theorem unsetVariable_failed {s : State F} {name : Bytes}
    (h : (s.unsetVariable name).1 ≠ .ok) : (s.unsetVariable name).2 = s := by
  unfold State.unsetVariable at h ⊢
  split at h <;> rename_i hname
  · rw [if_pos hname]
  · rw [if_neg hname]
    split at h <;> rename_i hfind
    · exact absurd rfl h
    · split at h <;> rename_i hro
      · exact congrArg Prod.snd (if_pos hro)
      · exact absurd rfl h

/-- **A call that reports failure leaves the state as it was.** -/
theorem run_failed (op : Operation F) (s : State F) (h : (op.run s).1 ≠ .ok) :
    (op.run s).2 = s := by
  cases op with
  | setVariable name value => exact setVariable_failed h
  | updateAttributes name set clear => exact updateAttributes_failed h
  | unsetVariable name => exact unsetVariable_failed h
  | setParameters arguments | pushParameters arguments =>
    simp only [run] at h ⊢
    split
    · next given hargs =>
      rw [hargs] at h
      exact absurd rfl h
    · rfl
  | setStatus status =>
    simp only [run, State.setStatus] at h ⊢
    split
    · rfl
    · next hneg => exact absurd (by rw [if_neg hneg]) h
  | setBackground pid =>
    simp only [run, State.setBackground] at h ⊢
    split
    · rfl
    · next hneg => exact absurd (by rw [if_neg hneg]) h
  | updateOptions set clear =>
    simp only [run, State.updateOptions] at h ⊢
    split
    · rfl
    · next hbad => exact absurd (by rw [if_neg hbad]) h
  | setFunction name function =>
    simp only [run, State.setFunction] at h ⊢
    split
    · rfl
    · next hname =>
      rw [if_neg hname] at h
      cases function with
      | none => exact absurd rfl h
      | some f => exact absurd rfl h
  | setAlias name value => exact onAliases_failed s _ h
  | unsetAlias name => exact onAliases_failed s _ h
  | clone =>
    simp only [run] at h ⊢
    split
    · next copy hc =>
      rw [hc] at h
      exact absurd rfl h
    · rfl
  | restoreVariables saves => exact absurd rfl h
  | popParameters save => exact absurd rfl h
  | setErrexitIgnored depth => exact absurd rfl h
  | setFunctionDepth depth => exact absurd rfl h
  | setSourceDepth depth => exact absurd rfl h
  | setGetoptsOffset offset => exact absurd rfl h
  | hashSet name path => exact absurd rfl h
  | hashClear => exact absurd rfl h
  | withAliases => exact absurd rfl h
  | clearAliases => exact absurd rfl h
  | manageLocale => exact absurd rfl h
  | restore checkpoint => exact absurd rfl h

end Operation

/-! ### Sequences of calls -/

/-- One call keeps a state among the reachable ones. -/
theorem Reachable.run {s : State F} (h : s.Reachable) {op : Operation F} (hop : op.Given) :
    (op.run s).2.Reachable := by
  cases op with
  | setVariable name value => exact h.setVariable name value
  | updateAttributes name set clear => exact h.updateAttributes name set clear
  | unsetVariable name => exact h.unsetVariable name
  | restoreVariables saves =>
    obtain ⟨saved, names, hsaved, rfl⟩ := hop
    exact h.restoreVariables hsaved names
  | setParameters arguments | pushParameters arguments =>
    simp only [Operation.run]
    split
    · exact h.setParameters _
    · exact h
  | popParameters save =>
    obtain ⟨saved, arguments, hsaved, rfl⟩ := hop
    exact h.popParameters hsaved arguments
  | setStatus status => exact h.setStatus status
  | setBackground pid => exact h.setBackground pid
  | updateOptions set clear => exact h.updateOptions set clear
  | setErrexitIgnored depth => exact h.setErrexitIgnored depth
  | setFunctionDepth depth => exact h.setFunctionDepth depth
  | setSourceDepth depth => exact h.setSourceDepth depth
  | setGetoptsOffset offset => exact h.setGetoptsOffset offset
  | setFunction name function => exact h.setFunction name function
  | hashSet name path => exact h.hashSet name path
  | hashClear => exact h.hashClear
  | withAliases => exact h.withAliases
  | setAlias name value =>
    simp only [Operation.run, Operation.onAliases]
    split
    · next aliases hset =>
      obtain ⟨table, ha, hset⟩ := Option.bind_eq_some_iff.mp hset
      exact h.setAlias ha hset
    · exact h
  | unsetAlias name =>
    simp only [Operation.run, Operation.onAliases]
    split
    · next aliases hset =>
      obtain ⟨table, ha, hset⟩ := Option.bind_eq_some_iff.mp hset
      exact h.unsetAlias ha hset
    · exact h
  | clearAliases =>
    cases ha : s.aliases with
    | none =>
      have hsame : { s with aliases := none } = s := by rw [← ha]
      simpa only [Operation.run, ha, Option.map_none, hsame] using h
    | some table =>
      simpa only [Operation.run, ha, Option.map_some] using h.clearAliases ha
  | manageLocale => exact h.manageLocale
  | clone =>
    simp only [Operation.run]
    split
    · next copy hc => exact h.clone hc
    · exact h
  | restore checkpoint =>
    obtain ⟨saved, hsaved, hc⟩ := hop
    exact h.restore hsaved hc

/-- A sequence of calls keeps a state among the reachable ones. -/
theorem Reachable.runAll {s : State F} (h : s.Reachable) {ops : List (Operation F)}
    (hops : ∀ op ∈ ops, op.Given) : (Operation.runAll ops s).Reachable := by
  induction ops generalizing s with
  | nil => exact h
  | cons op ops ih =>
    have hop : op.Given := hops op List.mem_cons_self
    exact ih (h.run hop) fun op' hmem => hops op' (List.mem_cons_of_mem op hmem)

/-- The names of a well-formed alias table are distinct. -/
theorem aliases_nodup {aliases : List (Bytes × Bytes)} (h : Alias.WellFormed aliases) :
    (Table.keys aliases).Nodup := by
  refine List.Pairwise.imp ?_ h.sorted
  rintro a b hab rfl
  rw [Alias.below_irrefl] at hab
  cases hab

/-- **Copies and checkpoints are exact.**  After any sequence of calls from a created
state the tables have the shape their setters need: the copy is the state, list order
included, and a checkpoint gives the state back whatever was done in between.  A call
that reports failure changes nothing. -/
theorem snapshots_exact (arg0 : Bytes) (arguments envp : List Bytes) (pid : ℤ) (mode : InputMode)
    (options : UInt32) (interactive : Bool) (ops : List (Operation F))
    (hops : ∀ op ∈ ops, op.Given) :
    let s := Operation.runAll ops (create arg0 arguments envp pid mode options interactive)
    s.WellFormed ∧
    (∀ aliases ∈ s.aliases, (Table.keys aliases).Nodup) ∧
    s.clone = some s ∧
    (∃ checkpoint, s.save = some checkpoint ∧
      ∀ further : List (Operation F), (Operation.runAll further s).restore checkpoint = s) ∧
    (∀ op : Operation F, (op.run s).1 ≠ .ok → (op.run s).2 = s) := by
  intro s
  have hreach : s.Reachable :=
    (Reachable.create arg0 arguments envp pid mode options interactive).runAll hops
  have hwf : s.WellFormed := hreach.wellFormed
  refine ⟨hwf, ?_, hwf.clone_eq, ⟨s, hwf.save_eq, fun further => rfl⟩, fun op => op.run_failed s⟩
  intro aliases ha
  exact aliases_nodup (hwf.aliases_wf aliases ha)

/-- A shell that sets a variable, defines a function and an alias, hashes a command
and is then refused an assignment to a readonly name. -/
theorem snapshots_exact_session :
    let ops : List (Operation ℕ) :=
      [.setVariable (ascii "x") (ascii "1"), .updateAttributes (ascii "x") Attr.readonly 0,
       .setFunction (ascii "f") (some 7), .withAliases, .setAlias (ascii "ll") (ascii "ls -l"),
       .hashSet (ascii "ls") (ascii "/bin/ls"), .setVariable (ascii "x") (ascii "2")]
    let s := Operation.runAll ops (create (ascii "sh") [ascii "a"] [ascii "PATH=/bin"] 1 .stdin 0 false)
    s.WellFormed ∧ s.clone = some s ∧ s.vars.length = 2 ∧
      s.hashes = [(ascii "ls", ascii "/bin/ls")] := by
  intro ops s
  have hops : ∀ op ∈ ops, op.Given := by
    simp [ops, Operation.Given]
  have h := snapshots_exact (ascii "sh") [ascii "a"] [ascii "PATH=/bin"] 1 .stdin 0 false ops hops
  exact ⟨h.1, h.2.2.1, by decide, by decide⟩

end State

end CShell
