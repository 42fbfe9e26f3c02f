import CShell.State.Scope

/-!
# The environment

An exported variable is handed to a child as the text `NAME=value`.  The names are valid
and distinct, so that the first `=` of an entry ends its name and no entry is overwritten
when the child imports them.

## Main definitions

* `entryOf` — the entry of a variable.
* `State.environment` — `csh_state_environment`.
* `State.importEnvironment` — `import_environment`, with its result.
* `State.Exports` — the state has an exported variable with a value.
* `LastEntry` — the last entry of a valid name.

## Main results

* `imported_create` — **the last entry of each valid name is imported, and nothing else.**
* `environment_imported` — **a child has the exported variables of its parent.**

## References

`src/state.c`.
-/

namespace CShell

open List

variable {F : Type}

/-! ### Entries -/

/-- The entry of a variable. -/
def entryOf (name value : Bytes) : Bytes := name ++ byteOf '=' :: value

/-- The name an entry begins with. -/
def entryName (entry : Bytes) : Bytes := entry.takeWhile (· != byteOf '=')

variable {name : Bytes} {envp : List Bytes}

/-- A valid name has no `=`. -/
theorem equals_notMem_of_validName (h : validName name = true) : byteOf '=' ∉ name :=
  fun hmem => absurd (nameByte_of_mem h _ hmem) (by decide)

theorem entryName_entryOf (h : byteOf '=' ∉ name) (value : Bytes) :
    entryName (entryOf name value) = name := by
  unfold entryName entryOf
  rw [takeWhile_append_of_pos]
  · simp
  · intro byte hbyte
    rw [bne_iff_ne]
    rintro rfl
    exact h hbyte

theorem entryOf_inj {name name' value value' : Bytes} (h : byteOf '=' ∉ name) (h' : byteOf '=' ∉ name')
    (heq : entryOf name value = entryOf name' value') : name = name' ∧ value = value' := by
  have hname : name = name' := by
    rw [← entryName_entryOf h value, heq, entryName_entryOf h' value']
  subst hname
  unfold entryOf at heq
  exact ⟨rfl, (cons.inj (append_cancel_left heq)).2⟩

theorem drop_entryOf (name value : Bytes) : (entryOf name value).drop (name.length + 1) = value := by
  unfold entryOf
  rw [← drop_drop, drop_left]
  rfl

/-- The first `=` of an entry ends its name. -/
theorem exists_entryOf {entry : Bytes} (h : entry.contains (byteOf '=') = true) :
    ∃ name value, byteOf '=' ∉ name ∧ entry = entryOf name value := by
  obtain ⟨name, value, hentry, hname⟩ := eq_append_cons_of_mem (contains_iff_mem.mp h)
  exact ⟨name, value, hname, hentry⟩

theorem contains_entryOf (name value : Bytes) : (entryOf name value).contains (byteOf '=') = true := by
  simp [entryOf]

/-- The last entry of a valid name. -/
def LastEntry (envp : List Bytes) (name value : Bytes) : Prop :=
  validName name = true ∧
    ∃ before after, envp = before ++ entryOf name value :: after ∧ ∀ other, entryOf name other ∉ after

/-- Another entry replaces the one of its name. -/
theorem lastEntry_concat {entry name value : Bytes} :
    LastEntry (envp ++ [entry]) name value ↔
      validName name = true ∧ entry = entryOf name value ∨
        LastEntry envp name value ∧ ∀ other, entry ≠ entryOf name other := by
  constructor
  · rintro ⟨hvalid, before, after, henvp, hafter⟩
    rcases eq_nil_or_concat after with rfl | ⟨after, last, rfl⟩
    · obtain ⟨-, hentry⟩ := append_inj' henvp rfl
      exact .inl ⟨hvalid, (cons.inj hentry).1⟩
    · rw [concat_eq_append, ← cons_append, ← append_assoc] at henvp
      obtain ⟨henvp, hlast⟩ := append_inj' henvp rfl
      have hsame : entry = last := (cons.inj hlast).1
      refine .inr ⟨⟨hvalid, before, after, henvp, fun other hmem => hafter other ?_⟩, fun other hother => ?_⟩
      · simp [hmem]
      · exact hafter other (by simp [← hother, hsame])
  · rintro (⟨hvalid, hentry⟩ | ⟨⟨hvalid, before, after, henvp, hafter⟩, hother⟩)
    · exact ⟨hvalid, envp, [], by rw [hentry], by simp⟩
    · refine ⟨hvalid, before, after ++ [entry], by simp [henvp], fun other hmem => ?_⟩
      rcases mem_append.mp hmem with hmem | hmem
      · exact hafter other hmem
      · exact hother other (mem_singleton.mp hmem).symm

namespace State

/-! ### Export -/

/-- `csh_state_environment`. -/
def environment (s : State F) : List Bytes :=
  s.vars.filterMap fun v =>
    if hasBit v.attributes Attr.exported then v.value.map (entryOf v.name) else none

/-- The state has an exported variable of this name and value. -/
def Exports (s : State F) (name value : Bytes) : Prop :=
  ∃ attributes, s.binding name = some ⟨some value, attributes⟩ ∧ hasBit attributes Attr.exported = true

variable {s : State F}

theorem binding_eq_some (h : s.WellFormed) {b : VariableView} :
    s.binding name = some b ↔ ⟨name, b.value, b.attributes⟩ ∈ s.vars := by
  rw [binding]
  constructor
  · intro hbinding
    obtain ⟨v, hfind, hview⟩ := Option.map_eq_some_iff.mp hbinding
    obtain ⟨hmem, hname⟩ := name_mem_of_find hfind
    rw [← hview, ← hname]
    exact hmem
  · intro hmem
    cases hfind : findVariable s.vars name with
    | none => exact absurd (mem_map_of_mem hmem) (not_mem_of_find_none hfind)
    | some v =>
      obtain ⟨hv, hname⟩ := name_mem_of_find hfind
      have hsame : v = ⟨name, b.value, b.attributes⟩ := inj_on_of_nodup_map h.variables_nodup hv hmem hname
      rw [hsame]
      rfl

/-- The environment has the entries of the exported variables, and nothing else. -/
theorem mem_environment (h : s.WellFormed) {entry : Bytes} :
    entry ∈ s.environment ↔ ∃ name value, s.Exports name value ∧ entry = entryOf name value := by
  unfold environment
  rw [mem_filterMap]
  constructor
  · rintro ⟨⟨name, value, attributes⟩, hv, hentry⟩
    split at hentry
    · next hexported =>
      obtain ⟨text, hvalue, hentry⟩ := Option.map_eq_some_iff.mp hentry
      dsimp only at hvalue
      subst hvalue
      exact ⟨name, text, ⟨attributes, (binding_eq_some h).mpr hv, hexported⟩, hentry.symm⟩
    · cases hentry
  · rintro ⟨name, value, ⟨attributes, hbinding, hexported⟩, rfl⟩
    exact ⟨_, (binding_eq_some h).mp hbinding, by simp [hexported]⟩

/-- No variable has two entries. -/
theorem nodup_environment (h : s.WellFormed) : (s.environment.map entryName).Nodup := by
  have hnames : ∀ vars : List Variable, (∀ v ∈ vars, validName v.name = true) →
      ((vars.filterMap fun v =>
        if hasBit v.attributes Attr.exported then v.value.map (entryOf v.name) else none).map entryName).Sublist
        (vars.map Variable.name) := by
    intro vars hvalid
    induction vars with
    | nil => exact List.Sublist.refl []
    | cons v vars ih =>
      have hrest := ih fun u hu => hvalid u (mem_cons_of_mem v hu)
      rw [filterMap_cons, map_cons]
      split
      · exact hrest.cons _
      · next entry hentry =>
        have hname : entryName entry = v.name := by
          split at hentry
          · obtain ⟨value, -, rfl⟩ := Option.map_eq_some_iff.mp hentry
            exact entryName_entryOf (equals_notMem_of_validName (hvalid v mem_cons_self)) value
          · cases hentry
        rw [map_cons, hname]
        exact hrest.cons_cons _
  exact h.variables_nodup.sublist (hnames s.vars h.variables_valid)

/-! ### Import -/

/-- `import_environment`. -/
def importEnvironment : List Bytes → State F → StateResult × State F
  | [], s => (.ok, s)
  | entry :: rest, s =>
    let name := entryName entry
    if entry.contains (byteOf '=') && validName name then
      match s.setVariable name (entry.drop (name.length + 1)) with
      | (.ok, s) =>
        match s.updateAttributes name Attr.exported 0 with
        | (.ok, s) => importEnvironment rest s
        | (status, s) => (status, s)
      | (status, s) => (status, s)
    else importEnvironment rest s

/-- What the entries so far have made of a new state. -/
structure Imported (s : State F) (envp : List Bytes) : Prop where
  options : s.info.options = 0
  binding : ∀ name b, s.binding name = some b ↔
    ∃ value, LastEntry envp name value ∧ b = ⟨some value, Attr.exported⟩

theorem imported_initial (arg0 : Bytes) (arguments : List Bytes) :
    (initial arg0 arguments : State F).Imported [] := by
  refine ⟨rfl, ?_⟩
  intro name b
  constructor
  · intro h
    cases h
  · rintro ⟨value, ⟨-, before, after, henvp, -⟩, -⟩
    cases before <;> cases henvp

/-- What a new state has is exported and can be written. -/
theorem Imported.attributes (h : s.Imported envp)
    {b : VariableView} (hb : s.binding name = some b) : b.attributes = Attr.exported := by
  obtain ⟨value, -, rfl⟩ := (h.binding name b).mp hb
  rfl

/-- An entry of a valid name is set and exported. -/
theorem Imported.entry (h : s.Imported envp)
    (hvalid : validName name = true) (value : Bytes) :
    (s.setVariable name value).1 = .ok ∧
      ((s.setVariable name value).2.updateAttributes name Attr.exported 0).1 = .ok ∧
      ((s.setVariable name value).2.updateAttributes name Attr.exported 0).2.Imported
        (envp ++ [entryOf name value]) := by
  have hwritable : Binding.writable (s.binding name) = true := by
    cases hb : s.binding name with
    | none => rfl
    | some b =>
      rw [Binding.writable, h.attributes hb]
      decide
  -- the entry of this name
  have hhere : Binding.change Attr.exported 0 (Binding.assign s.info.options value (s.binding name)) =
      some ⟨some value, Attr.exported⟩ := by
    have hchange : ∀ attributes, attributes = 0 ∨ attributes = Attr.exported →
        Binding.change Attr.exported 0 (some ⟨some value, attributes⟩) = some ⟨some value, Attr.exported⟩ := by
      intro attributes hattributes
      have hbits : (attributes ||| Attr.exported) &&& ~~~0 = Attr.exported := by
        rcases hattributes with rfl | rfl <;> decide
      have hkeep : (hasBit attributes Attr.readonly && hasBit 0 Attr.readonly) = false := by
        rcases hattributes with rfl | rfl <;> decide
      rw [Binding.change, if_neg (by decide)]
      dsimp only
      rw [hkeep, if_neg (by simp), hbits]
    have hkept : ∀ attributes, exportOnAssign 0 attributes = attributes := by
      intro attributes
      simp [exportOnAssign, hasBit]
    rw [h.options]
    cases hb : s.binding name with
    | none =>
      rw [Binding.assign, hkept]
      exact hchange 0 (.inl rfl)
    | some b =>
      have hreadonly : hasBit Attr.exported Attr.readonly = false := by decide
      rw [Binding.assign, h.attributes hb, hreadonly, if_neg (by simp), hkept]
      exact hchange _ (.inr rfl)
  refine ⟨setVariable_writable hvalid hwritable value, updateAttributes_exported _ hvalid, ?_, ?_⟩
  · rw [(beside_updateAttributes _ _ _ _).info, (beside_setVariable _ _ _).info, h.options]
  · intro name' b
    rw [binding_updateAttributes, binding_setVariable]
    simp only [lastEntry_concat]
    by_cases hname : name = name'
    · subst hname
      simp only [hvalid, true_and, if_true, hhere, Option.some.injEq]
      constructor
      · rintro rfl
        exact ⟨value, .inl rfl, rfl⟩
      · rintro ⟨other, hother | ⟨-, hnone⟩, rfl⟩
        · have hno := equals_notMem_of_validName hvalid
          rw [(entryOf_inj hno hno hother).2]
        · exact absurd rfl (hnone value)
    · rw [if_neg (by simp [hname]), if_neg (by simp [hname]), h.binding]
      have hother : ∀ other, validName name' = true → entryOf name value ≠ entryOf name' other := by
        intro other hvalid' heq
        exact hname (entryOf_inj (equals_notMem_of_validName hvalid) (equals_notMem_of_validName hvalid') heq).1
      constructor
      · rintro ⟨other, hlast, rfl⟩
        exact ⟨other, .inr ⟨hlast, fun text => hother text hlast.1⟩, rfl⟩
      · rintro ⟨other, ⟨hvalid', heq⟩ | ⟨hlast, -⟩, rfl⟩
        · exact absurd heq (hother other hvalid')
        · exact ⟨other, hlast, rfl⟩

/-- An entry that is ignored. -/
theorem Imported.ignored (h : s.Imported envp) {entry : Bytes}
    (hignored : ¬ (entry.contains (byteOf '=') && validName (entryName entry)) = true) :
    s.Imported (envp ++ [entry]) := by
  refine ⟨h.options, ?_⟩
  intro name b
  have hother : ∀ value, validName name = true → entry ≠ entryOf name value := by
    rintro value hvalid rfl
    rw [contains_entryOf, entryName_entryOf (equals_notMem_of_validName hvalid), hvalid] at hignored
    exact hignored rfl
  rw [h.binding]
  simp only [lastEntry_concat]
  constructor
  · rintro ⟨value, hlast, rfl⟩
    exact ⟨value, .inr ⟨hlast, fun text => hother text hlast.1⟩, rfl⟩
  · rintro ⟨value, ⟨hvalid, heq⟩ | ⟨hlast, -⟩, rfl⟩
    · exact absurd heq (hother value hvalid)
    · exact ⟨value, hlast, rfl⟩

/-- No import fails, and the last entry of each valid name is kept. -/
theorem Imported.importEnvironment {done : List Bytes} (h : s.Imported done)
    (envp : List Bytes) :
    State.importEnvironment envp s = (.ok, envp.foldl importEntry s) ∧
      (envp.foldl importEntry s).Imported (done ++ envp) := by
  induction envp generalizing s done with
  | nil => exact ⟨rfl, by rwa [append_nil]⟩
  | cons entry envp ih =>
    rw [foldl_cons, append_cons]
    by_cases htaken : (entry.contains (byteOf '=') && validName (entryName entry)) = true
    · obtain ⟨hequals, hvalid⟩ := (Bool.and_eq_true _ _).mp htaken
      obtain ⟨name, value, hname, rfl⟩ := exists_entryOf hequals
      have hstep : s.importEntry (entryOf name value) =
          ((s.setVariable name value).2.updateAttributes name Attr.exported 0).2 := by
        unfold importEntry
        rw [← entryName, if_pos htaken, entryName_entryOf hname, drop_entryOf]
      rw [entryName_entryOf hname] at hvalid
      obtain ⟨hset, hexport, himported⟩ := h.entry hvalid value
      have hrest := ih himported
      rw [hstep]
      refine ⟨?_, hrest.2⟩
      rw [State.importEnvironment, if_pos htaken, entryName_entryOf hname, drop_entryOf, ← hrest.1]
      generalize s.setVariable name value = r at hset hexport
      obtain ⟨status, s₁⟩ := r
      cases hset
      dsimp only at hexport ⊢
      generalize s₁.updateAttributes name Attr.exported 0 = r at hexport
      obtain ⟨status, s₂⟩ := r
      cases hexport
      rfl
    · have hsame : s.importEntry entry = s := by
        unfold importEntry
        rw [← entryName, if_neg htaken]
      rw [hsame, State.importEnvironment, if_neg htaken]
      exact ih (h.ignored htaken)

/-- **The last entry of each valid name is imported, and nothing else.** -/
theorem imported_create (envp : List Bytes) (arg0 : Bytes) (arguments : List Bytes) (pid : ℤ)
    (mode : InputMode) (options : UInt32) (interactive : Bool) (name : Bytes) (b : VariableView) :
    (create arg0 arguments envp pid mode options interactive : State F).binding name = some b ↔
      ∃ value, LastEntry envp name value ∧ b = ⟨some value, Attr.exported⟩ :=
  ((imported_initial (F := F) arg0 arguments).importEnvironment envp).2.binding name b

/-- The last entries of an environment are its variables. -/
theorem lastEntry_environment (h : s.WellFormed) {name value : Bytes} :
    LastEntry s.environment name value ↔ s.Exports name value := by
  have hvalid : ∀ {name value}, s.Exports name value → validName name = true := by
    rintro name value ⟨attributes, hbinding, -⟩
    exact h.variables_valid _ ((binding_eq_some h).mp hbinding)
  constructor
  · rintro ⟨hname, before, after, henvp, -⟩
    have hmem : entryOf name value ∈ s.environment := by simp [henvp]
    obtain ⟨name', value', hexports, heq⟩ := (mem_environment h).mp hmem
    obtain ⟨rfl, rfl⟩ := entryOf_inj (equals_notMem_of_validName hname)
      (equals_notMem_of_validName (hvalid hexports)) heq
    exact hexports
  · intro hexports
    have hname := equals_notMem_of_validName (hvalid hexports)
    obtain ⟨before, after, henvp⟩ := append_of_mem ((mem_environment h).mpr ⟨name, value, hexports, rfl⟩)
    refine ⟨hvalid hexports, before, after, henvp, fun other hother => ?_⟩
    -- a second entry of this name
    have hnodup := nodup_environment h
    rw [henvp, map_append, map_cons, entryName_entryOf hname] at hnodup
    have htwice : name ∈ after.map entryName := by
      rw [← entryName_entryOf hname other]
      exact mem_map_of_mem hother
    exact (nodup_cons.mp (nodup_append.mp hnodup).2.1).1 htwice

/-- **A child has the exported variables of its parent**, each with its value and exported,
and of any other environment the last entries of the valid names.  No import fails. -/
theorem environment_imported {s : State F} (hs : s.Reachable) :
    (∀ entry, entry ∈ s.environment ↔ ∃ name value, s.Exports name value ∧ entry = entryOf name value) ∧
      (s.environment.map entryName).Nodup ∧
      (∀ arg0 arguments pid mode options interactive name b,
        (create arg0 arguments s.environment pid mode options interactive : State F).binding name = some b ↔
          ∃ value, s.Exports name value ∧ b = ⟨some value, Attr.exported⟩) ∧
      (∀ envp arg0 arguments pid mode options interactive name b,
        (create arg0 arguments envp pid mode options interactive : State F).binding name = some b ↔
          ∃ value, LastEntry envp name value ∧ b = ⟨some value, Attr.exported⟩) ∧
      ∀ envp arg0 arguments, importEnvironment envp (initial arg0 arguments : State F) =
        (.ok, envp.foldl importEntry (initial arg0 arguments)) := by
  have h := hs.wellFormed
  refine ⟨fun entry => mem_environment h, nodup_environment h, ?_, imported_create, ?_⟩
  · intro arg0 arguments pid mode options interactive name b
    rw [imported_create]
    simp only [lastEntry_environment h]
  · intro envp arg0 arguments
    exact ((imported_initial arg0 arguments).importEnvironment envp).1

/-- A shell that was given `A` twice and a value with `=` and a newline in it. -/
abbrev child : State Unit :=
  create [] [] [ascii "A=1", ascii "B=x=\ny", ascii "A=2", ascii "1C=no", ascii "D"] 1 .stdin 0 false

theorem environment_imported_child :
    (ascii "A=2" ∈ child.environment ↔
        ∃ name value, child.Exports name value ∧ ascii "A=2" = entryOf name value) ∧
      child.environment = [ascii "B=x=\ny", ascii "A=2"] :=
  ⟨(environment_imported (.create ..)).1 _, by decide⟩

end State

end CShell
