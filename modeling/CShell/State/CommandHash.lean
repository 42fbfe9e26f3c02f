import CShell.State.Scope

/-!
# Coherence of the command hash

A hashed command stands for a search along `PATH`, so an entry is good only while
`PATH` is what it was when the entry was stored.  The state does not keep that value;
here a state is audited by a record, beside it, of the value of `PATH` at each
insertion.

## Main definitions

* `State.pathValue s` — the value of `PATH`, absence included.
* `Audited` — a state with the record of its insertions.
* `Audited.Reachable` — the audited states a shell can be in; a checkpoint brings
  back its own record.

## Main results

* `State.Operation.path_or_cleared` — what one call does to `PATH` and to the hash.
* `Audited.commandHash_coherent` — **every entry was stored under the current `PATH`.**
-/

namespace CShell

namespace State

variable {F : Type}

/-- The value `csh_state_get_variable` gives for `PATH`; absent and declared without
a value are the same `NULL`. -/
def pathValue (s : State F) : Option Bytes := (s.getVariable (ascii "PATH")).2.value

theorem pathValue_eq (s : State F) :
    s.pathValue = (s.binding (ascii "PATH")).bind VariableView.value := by
  have hvalid : validName (ascii "PATH") = true := by decide
  unfold pathValue getVariable binding
  rw [hvalid]
  cases findVariable s.vars (ascii "PATH") with
  | none => rfl
  | some v => rfl

theorem pathValue_of_vars {s s' : State F} (h : s'.vars = s.vars) : s'.pathValue = s.pathValue := by
  rw [pathValue_eq, pathValue_eq, binding_eq, binding_eq, h]

/-- The hash lost all its entries, or `PATH` has its value still and no entry is new. -/
def Kept (s s' : State F) : Prop :=
  s'.hashes = [] ∨ (s'.pathValue = s.pathValue ∧ s'.hashes = s.hashes)

theorem Kept.refl (s : State F) : Kept s s := Or.inr ⟨rfl, rfl⟩

theorem Kept.trans {s₁ s₂ s₃ : State F} (h : Kept s₁ s₂) (h' : Kept s₂ s₃) : Kept s₁ s₃ := by
  rcases h' with h' | ⟨hp', hh'⟩
  · exact Or.inl h'
  · rcases h with h | ⟨hp, hh⟩
    · exact Or.inl (hh'.trans h)
    · exact Or.inr ⟨hp'.trans hp, hh'.trans hh⟩

/-- A call that touches neither the variables nor the hash. -/
theorem Kept.of_eq {s s' : State F} (hv : s'.vars = s.vars) (hh : s'.hashes = s.hashes) :
    Kept s s' := Or.inr ⟨pathValue_of_vars hv, hh⟩

/-! ### The routes to `PATH` -/

theorem hashes_assigned (s : State F) (name : Bytes) :
    (s.assigned name).hashes = if name = ascii "PATH" then [] else s.hashes := by
  unfold assigned hashClear
  by_cases hp : name = ascii "PATH"
  · have hne : ascii "PATH" ≠ ascii "OPTIND" := by decide
    simp [hp, hne]
  · simp only [hp, beq_iff_eq, if_false]
    split <;> rfl

theorem kept_setVariable (s : State F) (name value : Bytes) :
    Kept s (s.setVariable name value).2 := by
  by_cases hok : (s.setVariable name value).1 = .ok
  · by_cases hp : name = ascii "PATH"
    · -- a new `PATH` empties the hash
      left
      subst hp
      unfold setVariable at hok ⊢
      split at hok
      · cases hok
      · next hvalid =>
        rw [if_neg hvalid]
        split at hok
        · split at hok
          · cases hok
          · next hro => rw [if_neg hro, hashes_assigned, if_pos rfl]
        · rw [hashes_assigned, if_pos rfl]
    · right
      constructor
      · rw [pathValue_eq, pathValue_eq, binding_setVariable, if_neg fun h => hp h.2]
      · unfold setVariable
        split
        · rfl
        · split
          · split
            · rfl
            · rw [hashes_assigned, if_neg hp]
          · rw [hashes_assigned, if_neg hp]
  · rw [Operation.setVariable_failed hok]
    exact Kept.refl s

theorem kept_unsetVariable (s : State F) (name : Bytes) :
    Kept s (s.unsetVariable name).2 := by
  unfold unsetVariable
  split
  · exact Kept.refl s
  · next hvalid =>
    split
    · exact Kept.refl s
    · next v hfind =>
      split
      · exact Kept.refl s
      · next hro =>
        dsimp only
        by_cases hp : name = ascii "PATH"
        · rw [if_pos (by simpa using hp)]
          exact Or.inl rfl
        · rw [if_neg (by simpa using hp)]
          refine Or.inr ⟨?_, rfl⟩
          rw [pathValue_eq, pathValue_eq, binding_eq, binding_eq,
            findVariable_unlinkVariable_of_ne hp]

/-- Attributes leave the value of `PATH` alone; a `PATH` declared by them has none. -/
theorem kept_updateAttributes (s : State F) (name : Bytes) (set clear : UInt32) :
    Kept s (s.updateAttributes name set clear).2 := by
  have hhashes : (s.updateAttributes name set clear).2.hashes = s.hashes := by
    unfold updateAttributes
    split
    · rfl
    · split
      · split <;> rfl
      · dsimp only
        split <;> rfl
  refine Or.inr ⟨?_, hhashes⟩
  rw [pathValue_eq, pathValue_eq, binding_updateAttributes]
  split
  · unfold Binding.change
    split
    · rfl
    · cases s.binding (ascii "PATH") with
      | none =>
        dsimp only
        split <;> rfl
      | some b =>
        dsimp only
        split <;> rfl
  · rfl

theorem kept_restoreVariable (s : State F) (entry : VariableSave) :
    Kept s (s.restoreVariable entry) := by
  by_cases hp : entry.var.name = ascii "PATH"
  · left
    simp [restoreVariable, hp, hashClear]
  · right
    have hne : (entry.var.name == ascii "PATH") = false := by simpa using hp
    simp only [restoreVariable, hne, Bool.false_eq_true, if_false, and_true]
    rw [pathValue_eq, pathValue_eq, binding_eq, binding_eq]
    dsimp only
    split
    · rw [findVariable_cons, if_neg hp, findVariable_unlinkVariable_of_ne hp]
    · rw [findVariable_unlinkVariable_of_ne hp]

theorem kept_restoreVariables (s : State F) (saves : List VariableSave) :
    Kept s (s.restoreVariables saves) := by
  induction saves generalizing s with
  | nil => exact Kept.refl s
  | cons e saves ih => exact (kept_restoreVariable s e).trans (ih _)

/-- **What one call does to `PATH` and to the hash**, where it neither stores an entry
nor swaps in a checkpoint. -/
theorem Operation.path_or_cleared {s : State F} (h : s.Reachable) (op : Operation F)
    (hstore : ∀ name path, op ≠ .hashSet name path) (hswap : ∀ checkpoint, op ≠ .restore checkpoint) :
    Kept s (op.run s).2 := by
  cases op with
  | setVariable name value => exact kept_setVariable s name value
  | updateAttributes name set clear => exact kept_updateAttributes s name set clear
  | unsetVariable name => exact kept_unsetVariable s name
  | restoreVariables saves => exact kept_restoreVariables s saves
  | setParameters arguments | pushParameters arguments =>
    simp only [run]
    split
    · exact Kept.of_eq rfl rfl
    · exact Kept.refl s
  | popParameters save => exact Kept.of_eq rfl rfl
  | setStatus status =>
    simp only [run, State.setStatus]
    split
    · exact Kept.refl s
    · exact Kept.of_eq rfl rfl
  | setBackground pid =>
    simp only [run, State.setBackground]
    split
    · exact Kept.refl s
    · exact Kept.of_eq rfl rfl
  | updateOptions set clear =>
    simp only [run, State.updateOptions]
    split
    · exact Kept.refl s
    · exact Kept.of_eq rfl rfl
  | setErrexitIgnored depth => exact Kept.of_eq rfl rfl
  | setFunctionDepth depth => exact Kept.of_eq rfl rfl
  | setSourceDepth depth => exact Kept.of_eq rfl rfl
  | setGetoptsOffset offset => exact Kept.of_eq rfl rfl
  | setFunction name function =>
    simp only [run, State.setFunction]
    split
    · exact Kept.refl s
    · cases function with
      | none => exact Kept.of_eq rfl rfl
      | some f => exact Kept.of_eq rfl rfl
  | hashSet name path => exact absurd rfl (hstore name path)
  | hashClear => exact Or.inl rfl
  | withAliases => exact Kept.of_eq rfl rfl
  | setAlias name value | unsetAlias name =>
    simp only [run, onAliases]
    split
    · exact Kept.of_eq rfl rfl
    · exact Kept.refl s
  | clearAliases => exact Kept.of_eq rfl rfl
  | manageLocale => exact Kept.of_eq rfl rfl
  | clone =>
    rw [run, h.wellFormed.clone_eq]
    exact Kept.refl s
  | restore checkpoint => exact absurd rfl (hswap checkpoint)

end State

/-! ### Audited states -/

/-- A state, and beside it the value `PATH` had when each hashed name was stored. -/
structure Audited (F : Type) where
  state : State F
  recorded : List (Bytes × Option Bytes)

namespace Audited

variable {F : Type}

open State

/-- A call.  An insertion is recorded; the record of a name that is no longer hashed
is dropped. -/
def step (a : Audited F) : Operation F → Audited F
  | .hashSet name path =>
    ⟨a.state.hashSet name path, Table.put name a.state.pathValue a.recorded⟩
  | op =>
    let s := (op.run a.state).2
    ⟨s, a.recorded.filter fun e => (s.hashGet e.1).isSome⟩

/-- **The audited states a shell can be in.**  A checkpoint brings back the record of the
state it was taken from. -/
inductive Reachable : Audited F → Prop
  | create (arg0 arguments envp pid mode options interactive) :
      Reachable ⟨create arg0 arguments envp pid mode options interactive, []⟩
  | step {a} (h : Reachable a) (op : Operation F) (hop : op.Given)
      (hswap : ∀ checkpoint, op ≠ .restore checkpoint) : Reachable (a.step op)
  | restore {a saved : Audited F} {checkpoint : State F} (h : Reachable a) (h' : Reachable saved)
      (hc : saved.state.save = some checkpoint) :
      Reachable ⟨a.state.restore checkpoint, saved.recorded⟩

/-- Auditing does not change what the calls do. -/
theorem state_step (a : Audited F) (op : Operation F) : (a.step op).state = (op.run a.state).2 := by
  unfold step
  split <;> rfl

theorem Reachable.state {a : Audited F} (h : a.Reachable) : a.state.Reachable := by
  induction h with
  | create => exact .create _ _ _ _ _ _ _
  | @step a _ op hop _ ih =>
    rw [state_step]
    exact ih.run hop
  | restore _ _ hc ih ih' => exact ih.restore ih' hc

/-- Every hashed name was stored under the value `PATH` has now. -/
def Coherent (a : Audited F) : Prop :=
  ∀ entry ∈ a.state.hashes, Table.find? entry.1 a.recorded = some a.state.pathValue

theorem mem_keys_of_mem {entry : Bytes × Bytes} {t : List (Bytes × Bytes)} (h : entry ∈ t) :
    entry.1 ∈ Table.keys t := List.mem_map_of_mem h

theorem Coherent.hashSet {a : Audited F} (h : a.Coherent) (name path : Bytes) :
    (a.step (.hashSet name path)).Coherent := by
  intro entry hmem
  have hpath : (a.step (.hashSet name path)).state.pathValue = a.state.pathValue :=
    pathValue_of_vars rfl
  rw [hpath]
  simp only [step, Table.find?_put]
  split
  · rfl
  · next hne =>
    -- an entry of another name was there before
    have hold : entry.1 ∈ Table.keys a.state.hashes :=
      (Table.mem_keys_put.mp (mem_keys_of_mem hmem)).resolve_left (Ne.symm hne)
    obtain ⟨old, hold, hkey⟩ := List.mem_map.mp hold
    rw [← hkey]
    exact h old hold

theorem Coherent.kept {a : Audited F} (h : a.Coherent) {s : State F} (hk : Kept a.state s) :
    Coherent ⟨s, a.recorded.filter fun e => (s.hashGet e.1).isSome⟩ := by
  rcases hk with hk | ⟨hp, hh⟩
  · intro entry hmem
    rw [hk] at hmem
    cases hmem
  · intro entry hmem
    have hstill : (s.hashGet entry.1).isSome = true :=
      Table.isSome_find?_iff.mpr (mem_keys_of_mem hmem)
    rw [Table.find?_filter (p := fun name => (s.hashGet name).isSome) hstill, hp]
    exact h entry (hh ▸ hmem)

/-- Nothing is hashed before the first command. -/
theorem hashes_create (arg0 : Bytes) (arguments envp : List Bytes) (pid : ℤ) (mode : InputMode)
    (options : UInt32) (interactive : Bool) :
    (create arg0 arguments envp pid mode options interactive : State F).hashes = [] := by
  have hfold : ∀ (envp : List Bytes) (s : State F), s.hashes = [] →
      (envp.foldl State.importEntry s).hashes = [] := by
    intro envp
    induction envp with
    | nil => intro s hs; exact hs
    | cons e envp ih =>
      intro s hs
      apply ih
      unfold State.importEntry
      dsimp only
      split
      · rcases kept_updateAttributes (s.setVariable _ _).2 _ Attr.exported 0 with hk | ⟨-, hk⟩
        · exact hk
        · rw [hk]
          rcases kept_setVariable s _ _ with hk' | ⟨-, hk'⟩
          · exact hk'
          · rw [hk', hs]
      · exact hs
  exact hfold envp _ rfl

/-- **Every entry of the command hash was stored while `PATH` had the value it has now**,
after any sequence of calls, checkpoints and copies. -/
theorem commandHash_coherent {a : Audited F} (h : a.Reachable) : a.Coherent := by
  induction h with
  | create arg0 arguments envp pid mode options interactive =>
    intro entry hmem
    rw [hashes_create] at hmem
    cases hmem
  | @step a h op hop hswap ih =>
    by_cases hstore : ∃ name path, op = .hashSet name path
    · obtain ⟨name, path, rfl⟩ := hstore
      exact ih.hashSet name path
    · have hne : ∀ name path, op ≠ .hashSet name path := fun name path he => hstore ⟨name, path, he⟩
      have hk := op.path_or_cleared h.state hne hswap
      have hstep : a.step op
          = ⟨(op.run a.state).2, a.recorded.filter fun e => ((op.run a.state).2.hashGet e.1).isSome⟩ := by
        unfold Audited.step
        split
        · next name path => exact absurd rfl (hne name path)
        · rfl
      rw [hstep]
      exact ih.kept hk
  | restore _ h' hc _ ih' =>
    rw [h'.state.save_eq] at hc
    cases hc
    exact ih'

/-- `ls` is hashed under one `PATH`, a temporary scope puts another in its place and
hashes `cat` there.  When the scope closes both are gone, and `cat` is hashed anew. -/
theorem commandHash_coherent_scope :
    ∃ a : Audited ℕ, a.Reachable ∧ a.Coherent ∧ a.state.hashes = [(ascii "cat", ascii "/bin/cat")] ∧
      a.recorded = [(ascii "cat", some (ascii "/bin"))] := by
  have h₀ := Reachable.create (F := ℕ) (ascii "sh") [] [ascii "PATH=/bin"] 1 .stdin 0 false
  have h₁ := h₀.step (.hashSet (ascii "ls") (ascii "/bin/ls")) trivial (fun _ he => by cases he)
  have h₂ := h₁.step (.setVariable (ascii "PATH") (ascii "/tmp")) trivial (fun _ he => by cases he)
  have h₃ := h₂.step (.hashSet (ascii "cat") (ascii "/tmp/cat")) trivial (fun _ he => by cases he)
  have h₄ := h₃.step (.restoreVariables (State.saveVariables (Audited.state _) [ascii "PATH"]).2)
    ⟨_, _, h₁.state, rfl⟩ (fun _ he => by cases he)
  have h₅ := h₄.step (.hashSet (ascii "cat") (ascii "/bin/cat")) trivial (fun _ he => by cases he)
  exact ⟨_, h₅, commandHash_coherent h₅, by decide, by decide⟩

end Audited

end CShell
