import CShell.State.Operation

/-!
# Temporary assignment scopes

What the variable operations do to one name, and from it what a scope opened by
`csh_state_save_variables` and closed by `csh_state_restore_variables` leaves
behind, whatever is assigned, unset, exported or scoped in between.

## Main definitions

* `State.binding s name` — presence, value and attributes of a name.
* `Binding.assign`, `Binding.unset`, `Binding.change` — the operations on one name.
* `Script` — assignments, unsets, attribute changes and nested scopes.
* `Script.binding`, `Script.stores` — a script seen from one name: what it leaves
  there, and whether an assignment to it goes through.

## Main results

* `State.binding_restoreVariables` — a restored name has its saved binding.
* `Script.binding_run` — a script does to each name what its operations on it do.
* `Script.getoptsOffset_run` — the `getopts` offset is lost exactly when `OPTIND`
  is assigned.
* `Script.scope_undone_iff` — **a scope undoes everything it should, unless it names
  `OPTIND`, assigns it, and `getopts` was inside an argument.**
-/

namespace CShell

variable {F : Type}

/-! ### One name -/

namespace Binding

/-- `csh_state_set_variable` on one name; a readonly one is refused. -/
def assign (options : UInt32) (value : Bytes) : Option VariableView → Option VariableView
  | some b =>
    if hasBit b.attributes Attr.readonly then some b
    else some ⟨some value, State.exportOnAssign options b.attributes⟩
  | none => some ⟨some value, State.exportOnAssign options 0⟩

/-- `csh_state_unset_variable` on one name. -/
def unset : Option VariableView → Option VariableView
  | some b => if hasBit b.attributes Attr.readonly then some b else none
  | none => none

/-- `csh_state_update_attributes` on one name. -/
def change (set clear : UInt32) (b : Option VariableView) : Option VariableView :=
  if (set ||| clear) &&& ~~~Attr.all != 0 || set &&& clear != 0 then b
  else match b with
    | some b =>
      if hasBit b.attributes Attr.readonly && hasBit clear Attr.readonly then some b
      else some { b with attributes := (b.attributes ||| set) &&& ~~~clear }
    | none => if set &&& ~~~clear == 0 then none else some ⟨none, set &&& ~~~clear⟩

/-- An assignment to the name goes through. -/
def writable : Option VariableView → Bool
  | some b => !hasBit b.attributes Attr.readonly
  | none => true

end Binding

variable {s : State F}

namespace State

/-- Presence, value and attributes of a name. -/
def binding (s : State F) (name : Bytes) : Option VariableView :=
  (findVariable s.vars name).map fun v => ⟨v.value, v.attributes⟩

/-- What a variable shows of itself. -/
def view (v : Variable) : VariableView := ⟨v.value, v.attributes⟩

theorem binding_eq (s : State F) (name : Bytes) :
    s.binding name = (findVariable s.vars name).map view := rfl

/-! ### Looking up in a changed list -/

@[simp] theorem findVariable_nil (name : Bytes) : findVariable [] name = none := rfl

theorem findVariable_cons (v : Variable) (vars : List Variable) (name : Bytes) :
    findVariable (v :: vars) name = if v.name = name then some v else findVariable vars name := by
  unfold findVariable
  by_cases h : v.name = name
  · simp [h]
  · simp [h]

theorem findVariable_modifyVariable {f : Variable → Variable} (hf : ∀ v, (f v).name = v.name)
    (name name' : Bytes) (vars : List Variable) :
    findVariable (modifyVariable name f vars) name'
      = if name = name' then (findVariable vars name).map f else findVariable vars name' := by
  induction vars with
  | nil => simp [modifyVariable]
  | cons v vars ih =>
    by_cases hv : v.name = name
    · simp only [modifyVariable, hv, beq_self_eq_true, if_true, findVariable_cons, hf]
      by_cases hn : name = name'
      · simp [hn]
      · simp [hn]
    · have hne : (v.name == name) = false := by simpa using hv
      simp only [modifyVariable, hne, Bool.false_eq_true, if_false, findVariable_cons, hv, ih]
      by_cases hn : name = name'
      · subst hn
        simp [hv]
      · simp [hn]

theorem findVariable_unlinkVariable_of_ne {name name' : Bytes} (h : name ≠ name')
    (vars : List Variable) :
    findVariable (unlinkVariable name vars) name' = findVariable vars name' := by
  induction vars with
  | nil => rfl
  | cons v vars ih =>
    by_cases hv : v.name = name
    · have hne : v.name ≠ name' := fun h' => h (hv.symm.trans h')
      simp [unlinkVariable, hv, findVariable_cons, h]
    · have hne : (v.name == name) = false := by simpa using hv
      simp [unlinkVariable, hne, findVariable_cons, ih]

variable {name : Bytes}

theorem findVariable_eq_none {vars : List Variable}
    (h : name ∉ vars.map Variable.name) : findVariable vars name = none := by
  unfold findVariable
  rw [List.find?_eq_none]
  intro v hv hname
  have hname : v.name = name := by simpa using hname
  exact h (List.mem_map.mpr ⟨v, hv, hname⟩)

/-- An unlinked name is gone, where names are distinct. -/
theorem findVariable_unlinkVariable_self (name : Bytes) {vars : List Variable}
    (h : (vars.map Variable.name).Nodup) : findVariable (unlinkVariable name vars) name = none :=
  findVariable_eq_none (notMem_unlinkVariable name h)

/-! ### The operations, name by name -/

theorem binding_of_modify {s s' : State F} {f : Variable → Variable} {name name' : Bytes}
    (h : s'.vars = modifyVariable name f s.vars) (hf : ∀ v, (f v).name = v.name) :
    s'.binding name'
      = if name = name' then (findVariable s.vars name).map fun v => view (f v)
        else s.binding name' := by
  rw [binding_eq, h, findVariable_modifyVariable hf]
  split
  · rw [Option.map_map]
    rfl
  · rfl

theorem binding_assigned (s : State F) (name name' : Bytes) :
    (s.assigned name).binding name' = s.binding name' := by
  rw [binding_eq, binding_eq, (assigned_fields s name).1]

theorem vars_hashClear (s : State F) (name : Bytes) :
    (if name == ascii "PATH" then s.hashClear else s).vars = s.vars := by
  split <;> rfl

theorem binding_setVariable (s : State F) (name value name' : Bytes) :
    (s.setVariable name value).2.binding name'
      = if validName name = true ∧ name = name'
        then Binding.assign s.info.options value (s.binding name') else s.binding name' := by
  by_cases hvalid : validName name = true
  · simp only [setVariable, hvalid, Bool.not_true, Bool.false_eq_true, if_false, true_and]
    by_cases hn : name = name'
    · subst hn
      rw [if_pos rfl]
      cases hfind : findVariable s.vars name with
      | none =>
        simp only [binding_assigned]
        simp [binding_eq, findVariable_cons, hfind, view, Binding.assign]
      | some v =>
        dsimp only
        by_cases hro : hasBit v.attributes Attr.readonly = true
        · simp [hro, binding_eq, hfind, view, Binding.assign]
        · simp only [hro, Bool.false_eq_true, if_false, binding_assigned]
          rw [binding_of_modify (s := s) rfl (by intro v; rfl), if_pos rfl]
          simp [binding_eq, hfind, view, Binding.assign, hro]
    · rw [if_neg hn]
      cases hfind : findVariable s.vars name with
      | none =>
        simp only [binding_assigned]
        simp [binding_eq, findVariable_cons, hn]
      | some v =>
        dsimp only
        by_cases hro : hasBit v.attributes Attr.readonly = true
        · simp [hro]
        · simp only [hro, Bool.false_eq_true, if_false, binding_assigned]
          rw [binding_of_modify (s := s) rfl (by intro v; rfl), if_neg hn]
  · simp [setVariable, hvalid]

theorem binding_unsetVariable (h : s.WellFormed) (name name' : Bytes) :
    (s.unsetVariable name).2.binding name'
      = if validName name = true ∧ name = name' then Binding.unset (s.binding name')
        else s.binding name' := by
  by_cases hvalid : validName name = true
  · simp only [unsetVariable, hvalid, Bool.not_true, Bool.false_eq_true, if_false, true_and]
    cases hfind : findVariable s.vars name with
    | none =>
      dsimp only
      by_cases hn : name = name'
      · subst hn
        simp [binding_eq, hfind, Binding.unset]
      · simp [hn]
    | some v =>
      dsimp only
      by_cases hro : hasBit v.attributes Attr.readonly = true
      · by_cases hn : name = name'
        · subst hn
          simp [binding_eq, hfind, Binding.unset, view, hro]
        · simp [hro, hn]
      · simp only [hro, Bool.false_eq_true, if_false, binding_eq, vars_hashClear]
        by_cases hn : name = name'
        · subst hn
          rw [findVariable_unlinkVariable_self name h.variables_nodup]
          simp [hfind, Binding.unset, view, hro]
        · rw [findVariable_unlinkVariable_of_ne hn, if_neg hn]
  · simp [unsetVariable, hvalid]

theorem binding_updateAttributes (s : State F) (name : Bytes) (set clear : UInt32) (name' : Bytes) :
    (s.updateAttributes name set clear).2.binding name'
      = if validName name = true ∧ name = name' then Binding.change set clear (s.binding name')
        else s.binding name' := by
  by_cases hvalid : validName name = true
  · by_cases hbits : ((set ||| clear) &&& ~~~Attr.all != 0 || set &&& clear != 0) = true
    · have hbad : (!validName name || (set ||| clear) &&& ~~~Attr.all != 0 || set &&& clear != 0)
          = true := by
        rw [Bool.or_assoc, hbits, Bool.or_true]
      simp only [updateAttributes, hbad, if_true, Binding.change, hbits, ite_self]
    · have hgood : ¬(!validName name || (set ||| clear) &&& ~~~Attr.all != 0 || set &&& clear != 0)
          = true := by
        rw [Bool.or_assoc, hvalid]
        simpa using hbits
      rw [updateAttributes, if_neg hgood]
      simp only [hvalid, true_and, Binding.change, hbits]
      cases hfind : findVariable s.vars name with
      | none =>
        dsimp only
        by_cases hz : (set &&& ~~~clear == 0) = true
        · by_cases hn : name = name'
          · subst hn
            simp [hz, binding_eq, hfind]
          · simp [hz, hn]
        · by_cases hn : name = name'
          · subst hn
            simp [hz, binding_eq, hfind, findVariable_cons, view]
          · simp [hz, hn, binding_eq, findVariable_cons]
      | some v =>
        dsimp only
        by_cases hro : (hasBit v.attributes Attr.readonly && hasBit clear Attr.readonly) = true
        · by_cases hn : name = name'
          · subst hn
            simp [hro, binding_eq, hfind, view]
          · simp [hro, hn]
        · simp only [hro, Bool.false_eq_true, if_false]
          rw [binding_of_modify (s := s) rfl (by intro v; rfl)]
          by_cases hn : name = name'
          · subst hn
            simp [binding_eq, hfind, view, hro]
          · simp [hn]
  · simp [updateAttributes, hvalid]

/-! ### Refusals -/

theorem readonly_or_exported (attributes : UInt32) :
    hasBit (attributes ||| Attr.exported) Attr.readonly = hasBit attributes Attr.readonly := by
  have h : (attributes ||| Attr.exported) &&& Attr.readonly = attributes &&& Attr.readonly := by
    have hdisjoint : Attr.exported.toBitVec &&& Attr.readonly.toBitVec = 0 := by decide
    apply UInt32.toBitVec_inj.mp
    rw [UInt32.toBitVec_and, UInt32.toBitVec_or, BitVec.and_or_distrib_right, hdisjoint]
    simp
  unfold hasBit
  rw [h]

theorem readonly_exportOnAssign (options attributes : UInt32) :
    hasBit (exportOnAssign options attributes) Attr.readonly = hasBit attributes Attr.readonly := by
  unfold exportOnAssign
  split
  · exact readonly_or_exported attributes
  · rfl

theorem setVariable_writable (hname : validName name = true)
    (h : Binding.writable (s.binding name) = true) (text : Bytes) :
    (s.setVariable name text).1 = .ok := by
  rw [binding] at h
  rw [setVariable, if_neg (by simp [hname])]
  cases hfind : findVariable s.vars name with
  | none => rfl
  | some v =>
    rw [hfind, Option.map_some, Binding.writable, Bool.not_eq_true'] at h
    dsimp only
    rw [if_neg (by simp [h])]

theorem unsetVariable_writable (hname : validName name = true)
    (h : Binding.writable (s.binding name) = true) : (s.unsetVariable name).1 = .ok := by
  rw [binding] at h
  rw [unsetVariable, if_neg (by simp [hname])]
  cases hfind : findVariable s.vars name with
  | none => rfl
  | some v =>
    rw [hfind, Option.map_some, Binding.writable, Bool.not_eq_true'] at h
    dsimp only
    rw [if_neg (by simp [h])]

theorem setVariable_readonly (hname : validName name = true)
    (h : Binding.writable (s.binding name) = false) (text : Bytes) :
    s.setVariable name text = (.readonly, s) := by
  rw [binding] at h
  rw [setVariable, if_neg (by simp [hname])]
  cases hfind : findVariable s.vars name with
  | none =>
    rw [hfind] at h
    cases h
  | some v =>
    rw [hfind, Option.map_some, Binding.writable, Bool.not_eq_false'] at h
    exact if_pos h

theorem unsetVariable_readonly (hname : validName name = true)
    (h : Binding.writable (s.binding name) = false) : s.unsetVariable name = (.readonly, s) := by
  rw [binding] at h
  rw [unsetVariable, if_neg (by simp [hname])]
  cases hfind : findVariable s.vars name with
  | none =>
    rw [hfind] at h
    cases h
  | some v =>
    rw [hfind, Option.map_some, Binding.writable, Bool.not_eq_false'] at h
    exact if_pos h

theorem writable_of_setVariable {name text : Bytes} (hname : validName name = true)
    (h : (s.setVariable name text).1 = .ok) : Binding.writable (s.binding name) = true := by
  by_contra hw
  rw [setVariable_readonly hname (Bool.eq_false_iff.mpr hw)] at h
  cases h

theorem writable_of_unsetVariable (hname : validName name = true)
    (h : (s.unsetVariable name).1 = .ok) : Binding.writable (s.binding name) = true := by
  by_contra hw
  rw [unsetVariable_readonly hname (Bool.eq_false_iff.mpr hw)] at h
  cases h

theorem value_getVariable {x : Bytes} (hx : validName x = true) :
    (s.getVariable x).2.value = (s.binding x).bind VariableView.value := by
  simp only [getVariable, hx, binding, Bool.not_true, Bool.false_eq_true, if_false]
  cases findVariable s.vars x with
  | none => rfl
  | some v => rfl

theorem value_setVariable {x : Bytes} (hx : validName x = true)
    (h : Binding.writable (s.binding x) = true) (text : Bytes) :
    ((s.setVariable x text).2.binding x).bind VariableView.value = some text := by
  rw [binding_setVariable, if_pos ⟨hx, rfl⟩]
  cases hb : s.binding x with
  | none => rfl
  | some b =>
    rw [hb, Binding.writable, Bool.not_eq_true'] at h
    simp [Binding.assign, h]

theorem updateAttributes_exported (s : State F) (hname : validName name = true) :
    (s.updateAttributes name Attr.exported 0).1 = .ok := by
  have hbits : ((Attr.exported ||| 0) &&& ~~~Attr.all != 0 || Attr.exported &&& 0 != 0) = false := by
    decide
  have hkeep : hasBit 0 Attr.readonly = false := by decide
  rw [updateAttributes, Bool.or_assoc, hbits, if_neg (by simp [hname])]
  split
  · rw [hkeep, Bool.and_false]
    rfl
  · dsimp only
    split <;> rfl

/-! ### Saving and restoring -/

/-- The binding a saved entry stands for. -/
def shown (entry : VariableSave) : Option VariableView :=
  if entry.present then some (view entry.var) else none

/-- The entries a scope saves: one for each of its names, with the binding the name has. -/
structure Saves (s : State F) (names : List Bytes) (saves : List VariableSave) : Prop where
  shown : ∀ e ∈ saves, shown e = s.binding e.var.name
  valid : ∀ e ∈ saves, validName e.var.name = true
  names : ∀ name, name ∈ saves.map (fun e => e.var.name) ↔ name ∈ names

theorem Saves.saveVariable {names : List Bytes} {saves : List VariableSave}
    (h : Saves s names saves) (hname : validName name = true) :
    Saves s (name :: names) (s.saveVariable saves name) := by
  by_cases hany : (saves.any fun e => e.var.name == name) = true
  · -- the name is saved already
    have hmem : name ∈ names := by
      obtain ⟨e, he, heq⟩ := List.any_eq_true.mp hany
      have heq : e.var.name = name := by simpa using heq
      exact (h.names name).mp (List.mem_map.mpr ⟨e, he, heq⟩)
    rw [State.saveVariable, if_pos hany]
    refine ⟨h.shown, h.valid, fun x => ?_⟩
    rw [h.names x, List.mem_cons]
    exact ⟨Or.inr, fun hx => hx.elim (fun e => e ▸ hmem) id⟩
  · -- a new entry goes in front
    have hnew : ∀ entry : VariableSave, entry.var.name = name → State.shown entry = s.binding name →
        Saves s (name :: names) (entry :: saves) := by
      intro entry hn hs
      refine ⟨?_, ?_, fun x => ?_⟩
      · intro e he
        rcases List.mem_cons.mp he with rfl | he
        · rw [hs, hn]
        · exact h.shown e he
      · intro e he
        rcases List.mem_cons.mp he with rfl | he
        · rw [hn]
          exact hname
        · exact h.valid e he
      · rw [List.map_cons, List.mem_cons, List.mem_cons, h.names x, hn]
    rw [State.saveVariable, if_neg hany]
    cases hfind : findVariable s.vars name with
    | some v =>
      apply hnew
      · rfl
      · simp [State.shown, view, binding_eq, hfind]
    | none =>
      apply hnew
      · rfl
      · simp [State.shown, binding_eq, hfind]

/-- **What `csh_state_save_variables` saves.** -/
theorem saves_saveVariables (s : State F) {names : List Bytes}
    (hnames : ∀ name ∈ names, validName name = true) :
    Saves s names (s.saveVariables names).2 := by
  have hall : (!names.all validName) = false := by simpa using hnames
  have key : ∀ (rest done : List Bytes) (saves : List VariableSave), Saves s done saves →
      (∀ name ∈ rest, validName name = true) →
      Saves s (rest.reverse ++ done) (rest.foldl s.saveVariable saves) := by
    intro rest
    induction rest with
    | nil => intro done saves h _; exact h
    | cons name rest ih =>
      intro done saves h hvalid
      have hstep := h.saveVariable (hvalid name List.mem_cons_self)
      simpa using ih (name :: done) _ hstep fun n hn => hvalid n (List.mem_cons_of_mem name hn)
  have h := key names [] [] ⟨by simp, by simp, by simp⟩ hnames
  rw [saveVariables, hall]
  refine ⟨h.shown, h.valid, fun x => ?_⟩
  have hx := h.names x
  simpa using hx

theorem binding_restoreVariable (h : s.WellFormed) (entry : VariableSave)
    (name : Bytes) :
    (s.restoreVariable entry).binding name
      = if entry.var.name = name then shown entry else s.binding name := by
  have hvars : (s.restoreVariable entry).vars
      = if entry.present then entry.var :: unlinkVariable entry.var.name s.vars
        else unlinkVariable entry.var.name s.vars := by
    simp only [restoreVariable, vars_hashClear]
  rw [binding_eq, hvars]
  by_cases hn : entry.var.name = name
  · subst hn
    rw [if_pos rfl]
    by_cases hp : entry.present = true
    · simp [shown, hp, findVariable_cons]
    · simp [shown, hp, findVariable_unlinkVariable_self entry.var.name h.variables_nodup]
  · rw [if_neg hn]
    by_cases hp : entry.present = true
    · simp [hp, findVariable_cons, hn, findVariable_unlinkVariable_of_ne hn, binding_eq]
    · simp [hp, findVariable_unlinkVariable_of_ne hn, binding_eq]

/-- **A restored name has the binding it was saved with; any other keeps its own.** -/
theorem binding_restoreVariables {saved s : State F} {names : List Bytes}
    {saves : List VariableSave} (hs : Saves saved names saves) (h : s.WellFormed) (name : Bytes) :
    (s.restoreVariables saves).binding name
      = if name ∈ names then saved.binding name else s.binding name := by
  have key : ∀ (saves : List VariableSave) (s : State F), s.WellFormed →
      (∀ e ∈ saves, shown e = saved.binding e.var.name) →
      (∀ e ∈ saves, validName e.var.name = true) →
      (s.restoreVariables saves).binding name
        = if name ∈ saves.map (fun e => e.var.name) then saved.binding name
          else s.binding name := by
    intro saves
    induction saves with
    | nil => intro s _ _ _; simp [restoreVariables]
    | cons e saves ih =>
      intro s h hshown hvalid
      have hstep := h.restoreVariable (hvalid e List.mem_cons_self)
      have hrest := ih (s.restoreVariable e) hstep
        (fun e' he => hshown e' (List.mem_cons_of_mem e he))
        (fun e' he => hvalid e' (List.mem_cons_of_mem e he))
      have hhead : (s.restoreVariable e).binding name
          = if e.var.name = name then saved.binding name else s.binding name := by
        rw [binding_restoreVariable h, hshown e List.mem_cons_self]
        split
        · next hn => rw [hn]
        · rfl
      have hfold : s.restoreVariables (e :: saves) = (s.restoreVariable e).restoreVariables saves := rfl
      rw [hfold, hrest, hhead, List.map_cons]
      by_cases hm : name ∈ saves.map (fun e => e.var.name)
      · rw [if_pos hm, if_pos (List.mem_cons_of_mem _ hm)]
      · rw [if_neg hm]
        by_cases hn : e.var.name = name
        · rw [if_pos hn, if_pos (by rw [hn]; exact List.mem_cons_self)]
        · rw [if_neg hn, if_neg]
          rw [List.mem_cons]
          exact fun hmem => hmem.elim (fun he => hn he.symm) hm
  rw [key saves s h hs.shown hs.valid]
  simp only [hs.names name]

/-! ### What the variable operations leave alone -/

/-- Everything but the variables and the `getopts` offset is as before; the command
hash may have been emptied. -/
structure Beside (s s' : State F) : Prop where
  functions : s'.functions = s.functions
  aliases : s'.aliases = s.aliases
  arguments : s'.arguments = s.arguments
  arg0 : s'.arg0 = s.arg0
  info : s'.info = s.info
  managesLocale : s'.managesLocale = s.managesLocale
  hashes : s'.hashes = s.hashes ∨ s'.hashes = []

theorem Beside.refl (s : State F) : Beside s s := ⟨rfl, rfl, rfl, rfl, rfl, rfl, Or.inl rfl⟩

theorem Beside.trans {s₁ s₂ s₃ : State F} (h : Beside s₁ s₂) (h' : Beside s₂ s₃) :
    Beside s₁ s₃ where
  functions := h'.functions.trans h.functions
  aliases := h'.aliases.trans h.aliases
  arguments := h'.arguments.trans h.arguments
  arg0 := h'.arg0.trans h.arg0
  info := h'.info.trans h.info
  managesLocale := h'.managesLocale.trans h.managesLocale
  hashes := by
    rcases h'.hashes with h' | h'
    · rw [h']
      exact h.hashes
    · exact Or.inr h'

theorem Beside.withVars (s : State F) (vars : List Variable) : Beside s { s with vars } :=
  ⟨rfl, rfl, rfl, rfl, rfl, rfl, Or.inl rfl⟩

theorem Beside.assigned (s : State F) (name : Bytes) : Beside s (s.assigned name) := by
  obtain ⟨-, hf, hh, ha, hargs, hinfo, harg0, hlocale⟩ := assigned_fields s name
  exact ⟨hf, ha, hargs, harg0, hinfo, hlocale, hh⟩

theorem Beside.hashClear (s : State F) (name : Bytes) :
    Beside s (if name == ascii "PATH" then s.hashClear else s) := by
  split
  · exact ⟨rfl, rfl, rfl, rfl, rfl, rfl, Or.inr rfl⟩
  · exact Beside.refl s

theorem beside_setVariable (s : State F) (name value : Bytes) :
    Beside s (s.setVariable name value).2 := by
  unfold setVariable
  split
  · exact Beside.refl s
  · split
    · split
      · exact Beside.refl s
      · exact (Beside.withVars s _).trans (Beside.assigned _ name)
    · exact (Beside.withVars s _).trans (Beside.assigned _ name)

theorem beside_updateAttributes (s : State F) (name : Bytes) (set clear : UInt32) :
    Beside s (s.updateAttributes name set clear).2 := by
  unfold updateAttributes
  split
  · exact Beside.refl s
  · split
    · split
      · exact Beside.refl s
      · exact Beside.withVars s _
    · dsimp only
      split
      · exact Beside.refl s
      · exact Beside.withVars s _

theorem beside_unsetVariable (s : State F) (name : Bytes) :
    Beside s (s.unsetVariable name).2 := by
  unfold unsetVariable
  split
  · exact Beside.refl s
  · split
    · exact Beside.refl s
    · split
      · exact Beside.refl s
      · exact (Beside.withVars s _).trans (Beside.hashClear _ name)

theorem beside_restoreVariables (s : State F) (saves : List VariableSave) :
    Beside s (s.restoreVariables saves) := by
  induction saves generalizing s with
  | nil => exact Beside.refl s
  | cons e saves ih =>
    have hstep : Beside s (s.restoreVariable e) :=
      (Beside.hashClear s e.var.name).trans (Beside.withVars _ _)
    exact hstep.trans (ih _)

theorem getoptsOffset_assigned (s : State F) (name : Bytes) :
    (s.assigned name).getoptsOffset = if name = ascii "OPTIND" then 0 else s.getoptsOffset := by
  unfold assigned hashClear
  by_cases ho : name = ascii "OPTIND"
  · simp [ho]
  · simp only [ho, if_false, beq_iff_eq]
    split <;> rfl

/-- Only an assignment to `OPTIND` that goes through touches the `getopts` offset. -/
theorem getoptsOffset_setVariable (s : State F) (name value : Bytes) :
    (s.setVariable name value).2.getoptsOffset
      = if name = ascii "OPTIND" ∧ Binding.writable (s.binding name) = true then 0
        else s.getoptsOffset := by
  by_cases hvalid : validName name = true
  · simp only [setVariable, hvalid, Bool.not_true, Bool.false_eq_true, if_false]
    cases hfind : findVariable s.vars name with
    | none => simp [getoptsOffset_assigned, binding_eq, hfind, Binding.writable]
    | some v =>
      dsimp only
      by_cases hro : hasBit v.attributes Attr.readonly = true
      · simp [hro, binding_eq, hfind, Binding.writable, view]
      · simp [hro, getoptsOffset_assigned, binding_eq, hfind, Binding.writable, view]
  · have hne : name ≠ ascii "OPTIND" := by
      rintro rfl
      exact hvalid (by decide)
    simp [setVariable, hvalid, hne]

theorem getoptsOffset_updateAttributes (s : State F) (name : Bytes) (set clear : UInt32) :
    (s.updateAttributes name set clear).2.getoptsOffset = s.getoptsOffset := by
  unfold updateAttributes
  split
  · rfl
  · split
    · split <;> rfl
    · dsimp only
      split <;> rfl

theorem getoptsOffset_unsetVariable (s : State F) (name : Bytes) :
    (s.unsetVariable name).2.getoptsOffset = s.getoptsOffset := by
  unfold unsetVariable hashClear
  split
  · rfl
  · split
    · rfl
    · split
      · rfl
      · dsimp only
        split <;> rfl

theorem getoptsOffset_restoreVariables (s : State F) (saves : List VariableSave) :
    (s.restoreVariables saves).getoptsOffset = s.getoptsOffset := by
  induction saves generalizing s with
  | nil => rfl
  | cons e saves ih =>
    have hstep : (s.restoreVariable e).getoptsOffset = s.getoptsOffset := by
      unfold restoreVariable hashClear
      dsimp only
      split <;> rfl
    exact (ih _).trans hstep

end State

/-! ### Scripts -/

/-- What may happen between the two ends of a scope: assignments, unsets, attribute
changes, and further scopes that close before the outer one does. -/
inductive Script
  | done
  | assign (name value : Bytes) (rest : Script)
  | unset (name : Bytes) (rest : Script)
  | change (name : Bytes) (set clear : UInt32) (rest : Script)
  | scope (names : List Bytes) (inner rest : Script)
  deriving DecidableEq, Repr, Inhabited

namespace Script

open State

/-- The state a script leaves.  A scope whose names are refused saves nothing, so it
restores nothing. -/
def run : Script → State F → State F
  | .done, s => s
  | .assign name value rest, s => rest.run (s.setVariable name value).2
  | .unset name rest, s => rest.run (s.unsetVariable name).2
  | .change name set clear rest, s => rest.run (s.updateAttributes name set clear).2
  | .scope names inner rest, s =>
    rest.run ((inner.run s).restoreVariables (s.saveVariables names).2)

/-- A script seen from one name: only the operations on it count, and a scope over it
undoes what it holds. -/
def binding (options : UInt32) (name : Bytes) : Script → Option VariableView → Option VariableView
  | .done, b => b
  | .assign target value rest, b =>
    rest.binding options name
      (if validName target = true ∧ target = name then Binding.assign options value b else b)
  | .unset target rest, b =>
    rest.binding options name
      (if validName target = true ∧ target = name then Binding.unset b else b)
  | .change target set clear rest, b =>
    rest.binding options name
      (if validName target = true ∧ target = name then Binding.change set clear b else b)
  | .scope names inner rest, b =>
    rest.binding options name
      (if names.all validName = true ∧ name ∈ names then b else inner.binding options name b)

/-- Some assignment to the name goes through, that is, finds it not readonly. -/
def stores (options : UInt32) (name : Bytes) : Script → Option VariableView → Bool
  | .done, _ => false
  | .assign target value rest, b =>
    (target == name && Binding.writable b) ||
      rest.stores options name
        (if validName target = true ∧ target = name then Binding.assign options value b else b)
  | .unset target rest, b =>
    rest.stores options name
      (if validName target = true ∧ target = name then Binding.unset b else b)
  | .change target set clear rest, b =>
    rest.stores options name
      (if validName target = true ∧ target = name then Binding.change set clear b else b)
  | .scope names inner rest, b =>
    inner.stores options name b ||
      rest.stores options name
        (if names.all validName = true ∧ name ∈ names then b else inner.binding options name b)

/-- A closed scope, seen from one name. -/
theorem binding_scope {s s' : State F} (h' : s'.WellFormed) (names : List Bytes) (name : Bytes) :
    (s'.restoreVariables (s.saveVariables names).2).binding name
      = if names.all validName = true ∧ name ∈ names then s.binding name else s'.binding name := by
  by_cases hall : names.all validName = true
  · have hvalid : ∀ n ∈ names, validName n = true := by simpa using hall
    rw [binding_restoreVariables (saves_saveVariables s hvalid) h']
    simp only [hall, true_and]
  · have hnone : (s.saveVariables names).2 = [] := by
      rw [saveVariables, if_pos (by simpa using hall)]
    rw [hnone, if_neg fun h => hall h.1]
    rfl

theorem wellFormed_run (script : Script) (h : s.WellFormed) :
    (script.run s).WellFormed := by
  induction script generalizing s with
  | done => exact h
  | assign name value rest ih => exact ih (h.setVariable name value)
  | unset name rest ih => exact ih (h.unsetVariable name)
  | change name set clear rest ih => exact ih (h.updateAttributes name set clear)
  | scope names inner rest ihInner ihRest =>
    exact ihRest ((ihInner h).restoreVariables _ (saveVariables_valid s names))

/-- A script touches variables, the `getopts` offset and at most the command hash. -/
theorem beside_run (script : Script) (s : State F) : Beside s (script.run s) := by
  induction script generalizing s with
  | done => exact Beside.refl s
  | assign name value rest ih => exact (beside_setVariable s name value).trans (ih _)
  | unset name rest ih => exact (beside_unsetVariable s name).trans (ih _)
  | change name set clear rest ih => exact (beside_updateAttributes s name set clear).trans (ih _)
  | scope names inner rest ihInner ihRest =>
    exact ((ihInner s).trans (beside_restoreVariables _ _)).trans (ihRest _)

/-- **A script does to each name what its operations on that name do.** -/
theorem binding_run (script : Script) (h : s.WellFormed) (name : Bytes) :
    (script.run s).binding name = script.binding s.info.options name (s.binding name) := by
  induction script generalizing s with
  | done => rfl
  | assign target value rest ih =>
    rw [run, ih (h.setVariable target value), binding_setVariable,
      (beside_setVariable s target value).info]
    rfl
  | unset target rest ih =>
    rw [run, ih (h.unsetVariable target), binding_unsetVariable h,
      (beside_unsetVariable s target).info]
    rfl
  | change target set clear rest ih =>
    rw [run, ih (h.updateAttributes target set clear), binding_updateAttributes,
      (beside_updateAttributes s target set clear).info]
    rfl
  | scope names inner rest ihInner ihRest =>
    have hinner := wellFormed_run inner h
    have hinfo : ((inner.run s).restoreVariables (s.saveVariables names).2).info = s.info :=
      ((beside_run inner s).trans (beside_restoreVariables _ _)).info
    rw [run, ihRest (hinner.restoreVariables _ (saveVariables_valid s names)), hinfo,
      binding_scope hinner, ihInner h]
    rfl

/-- **The `getopts` offset is lost exactly when `OPTIND` is assigned**: closing a scope
does not bring it back. -/
theorem getoptsOffset_run (script : Script) (h : s.WellFormed) :
    (script.run s).getoptsOffset
      = if script.stores s.info.options (ascii "OPTIND") (s.binding (ascii "OPTIND")) then 0
        else s.getoptsOffset := by
  induction script generalizing s with
  | done => rfl
  | assign target value rest ih =>
    rw [run, ih (h.setVariable target value), binding_setVariable,
      (beside_setVariable s target value).info, getoptsOffset_setVariable, stores]
    by_cases ht : target = ascii "OPTIND"
    · subst ht
      by_cases hw : Binding.writable (s.binding (ascii "OPTIND")) = true
      · simp [hw]
      · simp [hw]
    · simp [ht]
  | unset target rest ih =>
    rw [run, ih (h.unsetVariable target), binding_unsetVariable h,
      (beside_unsetVariable s target).info, getoptsOffset_unsetVariable]
    rfl
  | change target set clear rest ih =>
    rw [run, ih (h.updateAttributes target set clear), binding_updateAttributes,
      (beside_updateAttributes s target set clear).info, getoptsOffset_updateAttributes]
    rfl
  | scope names inner rest ihInner ihRest =>
    have hinner := wellFormed_run inner h
    have hinfo : ((inner.run s).restoreVariables (s.saveVariables names).2).info = s.info :=
      ((beside_run inner s).trans (beside_restoreVariables _ _)).info
    rw [run, ihRest (hinner.restoreVariables _ (saveVariables_valid s names)), hinfo,
      binding_scope hinner, binding_run inner h, getoptsOffset_restoreVariables, ihInner h, stores]
    by_cases hs : inner.stores s.info.options (ascii "OPTIND") (s.binding (ascii "OPTIND")) = true
    · simp [hs]
    · simp [hs]

/-- What a scope over `names` has to leave behind: each of its names as it was, every
other name as the body's operations on it make it, and nothing else changed, the
`getopts` offset that belongs to a restored `OPTIND` included. -/
structure Undone (names : List Bytes) (body : Script) (before after : State F) : Prop where
  named : ∀ name ∈ names, after.binding name = before.binding name
  others : ∀ name, name ∉ names →
    after.binding name = body.binding before.info.options name (before.binding name)
  beside : Beside before after
  position : ascii "OPTIND" ∈ names → after.getoptsOffset = before.getoptsOffset

/-- **A scope undoes all it should exactly when it does not lose the place of
`getopts`**: it does not name `OPTIND`, or `getopts` was at the start of an argument, or
no assignment to `OPTIND` inside it goes through. -/
theorem scope_undone_iff {s : State F} (hs : s.Reachable) (names : List Bytes)
    (hnames : ∀ name ∈ names, validName name = true) (body : Script) :
    Undone names body s ((body.run s).restoreVariables (s.saveVariables names).2) ↔
      (ascii "OPTIND" ∉ names ∨ s.getoptsOffset = 0 ∨
        body.stores s.info.options (ascii "OPTIND") (s.binding (ascii "OPTIND")) = false) := by
  have h := hs.wellFormed
  have hbody := wellFormed_run body h
  have hall : names.all validName = true := by simpa using hnames
  have hbinding : ∀ name, ((body.run s).restoreVariables (s.saveVariables names).2).binding name
      = if name ∈ names then s.binding name
        else body.binding s.info.options name (s.binding name) := by
    intro name
    rw [binding_scope hbody, binding_run body h]
    simp only [hall, true_and]
  have hoffset : ((body.run s).restoreVariables (s.saveVariables names).2).getoptsOffset
      = if body.stores s.info.options (ascii "OPTIND") (s.binding (ascii "OPTIND")) then 0
        else s.getoptsOffset := by
    rw [getoptsOffset_restoreVariables, getoptsOffset_run body h]
  constructor
  · intro hundone
    by_cases hmem : ascii "OPTIND" ∈ names
    · have hpos := hundone.position hmem
      rw [hoffset] at hpos
      right
      split at hpos
      · exact Or.inl hpos.symm
      · next hst => exact Or.inr (by simpa using hst)
    · exact Or.inl hmem
  · intro hcond
    refine ⟨?_, ?_, (beside_run body s).trans (beside_restoreVariables _ _), ?_⟩
    · intro name hname
      rw [hbinding, if_pos hname]
    · intro name hname
      rw [hbinding, if_neg hname]
    · intro hmem
      rw [hoffset]
      rcases hcond with hno | hzero | hst
      · exact absurd hmem hno
      · rw [hzero, ite_self]
      · rw [hst]
        rfl

/-- `getopts` inside a group of options, as after `getopts ab o -ab`: `OPTIND` is 1 and
the next option letter is the second byte of the argument. -/
def insideGroup : State ℕ :=
  ((create (ascii "sh") [] [] 1 .stdin 0 false).setVariable (ascii "OPTIND") (ascii "1")).2.setGetoptsOffset 2

/-- `OPTIND=1 command` in that state: `OPTIND` comes back, the place inside the
argument does not. -/
theorem scope_loses_getopts :
    ¬ Undone [ascii "OPTIND"] (.assign (ascii "OPTIND") (ascii "1") .done) insideGroup
      (((Script.assign (ascii "OPTIND") (ascii "1") .done).run insideGroup).restoreVariables
        (insideGroup.saveVariables [ascii "OPTIND"]).2) := by
  intro h
  have hpos := h.position (by decide)
  revert hpos
  decide

/-- The same scope over another variable, with a nested one over `PATH`, is undone. -/
theorem scope_undone_iff_path :
    Undone [ascii "x"]
      (.assign (ascii "x") (ascii "2")
        (.scope [ascii "PATH", ascii "x"] (.assign (ascii "PATH") (ascii "/tmp") .done) .done))
      insideGroup
      (((Script.assign (ascii "x") (ascii "2")
        (.scope [ascii "PATH", ascii "x"] (.assign (ascii "PATH") (ascii "/tmp") .done) .done)).run
          insideGroup).restoreVariables (insideGroup.saveVariables [ascii "x"]).2) := by
  have hreach : insideGroup.Reachable :=
    ((Reachable.create (ascii "sh") [] [] 1 .stdin 0 false).setVariable _ _).setGetoptsOffset 2
  exact (scope_undone_iff hreach [ascii "x"] (by decide) _).mpr (Or.inl (by decide))

end Script

end CShell
