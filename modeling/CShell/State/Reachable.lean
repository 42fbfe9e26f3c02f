import CShell.State

/-!
# Reachable states

The states a shell can be in: what `csh_state_create` builds, and what the
operations of `state.c` and `alias.c` make of it.  They keep the tables in the
shape in which a copy made through the setters is exact.

## Main definitions

* `State.WellFormed s` — names are distinct and valid, aliases are sorted, and
  `argument_count` counts the arguments.
* `State.Reachable s` — `s` is reached from a created state.

## Main results

* `State.Reachable.wellFormed` — every operation keeps the shape.
* `State.WellFormed.save_eq` — **a checkpoint of a well-formed state is the state.**
-/

namespace CShell

/-! ### Byte order -/

namespace Alias

theorem below_irrefl (a : Bytes) : below a a = false := by
  induction a with
  | nil => rfl
  | cons x a ih => simp [below, ih]

theorem below_trans : ∀ a b c : Bytes, below a b = true → below b c = true → below a c = true := by
  intro a
  induction a with
  | nil =>
    intro b c hab hbc
    cases c with
    | nil => cases b <;> simp [below] at hbc
    | cons z c => rfl
  | cons x a ih =>
    intro b c hab hbc
    cases b with
    | nil => simp [below] at hab
    | cons y b =>
      cases c with
      | nil => simp [below] at hbc
      | cons z c =>
        simp only [below] at hab hbc ⊢
        by_cases hxy : x < y
        · by_cases hyz : y < z
          · rw [if_pos (UInt8.lt_trans hxy hyz)]
          · by_cases hzy : z < y
            · rw [if_neg hyz, if_pos hzy] at hbc
              cases hbc
            · have : y = z := UInt8.le_antisymm (UInt8.not_lt.mp hzy) (UInt8.not_lt.mp hyz)
              rw [if_pos (this ▸ hxy)]
        · by_cases hyx : y < x
          · rw [if_neg hxy, if_pos hyx] at hab
            cases hab
          · obtain rfl : x = y := UInt8.le_antisymm (UInt8.not_lt.mp hyx) (UInt8.not_lt.mp hxy)
            rw [if_neg hxy, if_neg hxy] at hab
            by_cases hxz : x < z
            · rw [if_pos hxz]
            · by_cases hzx : z < x
              · rw [if_neg hxz, if_pos hzx] at hbc
                cases hbc
              · rw [if_neg hxz, if_neg hzx] at hbc ⊢
                exact ih b c hab hbc

theorem below_total : ∀ a b : Bytes, below a b = false → a ≠ b → below b a = true := by
  intro a
  induction a with
  | nil =>
    intro b hab hne
    cases b with
    | nil => exact absurd rfl hne
    | cons y b => cases hab
  | cons x a ih =>
    intro b hab hne
    cases b with
    | nil => rfl
    | cons y b =>
      simp only [below] at hab ⊢
      by_cases hxy : x < y
      · rw [if_pos hxy] at hab
        cases hab
      · by_cases hyx : y < x
        · rw [if_pos hyx]
        · obtain rfl : x = y := UInt8.le_antisymm (UInt8.not_lt.mp hyx) (UInt8.not_lt.mp hxy)
          rw [if_neg hxy, if_neg hxy] at hab
          rw [if_neg hxy, if_neg hxy]
          exact ih b hab fun h => hne (by rw [h])

end Alias

/-! ### The invariant -/

/-- An alias table as `alias.c` keeps it: valid names, in strictly rising order. -/
structure Alias.WellFormed (aliases : List (Bytes × Bytes)) : Prop where
  valid : ∀ name ∈ Table.keys aliases, Alias.validName name = true
  sorted : Table.Sorted Alias.below aliases

namespace State

variable {F : Type}

/-- The shape the operations keep. -/
structure WellFormed (s : State F) : Prop where
  variables_valid : ∀ v ∈ s.vars, validName v.name = true
  variables_nodup : (s.vars.map Variable.name).Nodup
  functions_valid : ∀ name ∈ Table.keys s.functions, validName name = true
  functions_nodup : (Table.keys s.functions).Nodup
  hashes_nodup : (Table.keys s.hashes).Nodup
  aliases_wf : ∀ aliases ∈ s.aliases, Alias.WellFormed aliases
  argument_count : s.info.argumentCount = s.arguments.length

/-! ### Exact copies -/

theorem clone_functions (t : List (Bytes × F)) (hvalid : ∀ name ∈ Table.keys t, validName name = true)
    (c : State F) :
    t.foldlM cloneFunction c
    = some { c with functions := t.foldl (fun acc e => Table.put e.1 e.2 acc) c.functions } := by
  induction t generalizing c with
  | nil => rfl
  | cons e t ih =>
    have he : validName e.1 = true := hvalid e.1 (by simp)
    rw [List.foldlM_cons]
    simp only [cloneFunction, setFunction, he, Bool.not_true, Bool.false_eq_true, if_false]
    exact ih (fun name hn => hvalid name (by simp [hn])) _

theorem clone_aliases (t : List (Bytes × Bytes))
    (hvalid : ∀ name ∈ Table.keys t, Alias.validName name = true) (u : List (Bytes × Bytes)) :
    t.foldlM (fun acc e => Alias.set acc e.1 e.2) u
    = some (t.foldl (fun acc e => Table.insert Alias.below e.1 e.2 acc) u) := by
  induction t generalizing u with
  | nil => rfl
  | cons e t ih =>
    have he : Alias.validName e.1 = true := hvalid e.1 (by simp)
    rw [List.foldlM_cons]
    simp only [Alias.set, he, if_true]
    exact ih (fun name hn => hvalid name (by simp [hn])) _

theorem clone_hashes (t : List (Bytes × Bytes)) (c : State F) :
    t.foldl (fun c e => c.hashSet e.1 e.2) c
    = { c with hashes := t.foldl (fun acc e => Table.put e.1 e.2 acc) c.hashes } := by
  induction t generalizing c with
  | nil => rfl
  | cons e t ih => rw [List.foldl_cons, ih]; rfl

theorem aliasClone_eq {aliases : Option (List (Bytes × Bytes))}
    (h : ∀ a ∈ aliases, Alias.WellFormed a) : Alias.clone aliases = some aliases := by
  cases aliases with
  | none => rfl
  | some a =>
    have ha := h a rfl
    simp only [Alias.clone]
    rw [clone_aliases a ha.valid [], Table.foldl_insert Alias.below_irrefl ha.sorted]
    rfl

/-- **A copy of a well-formed state is the state.** -/
theorem WellFormed.clone_eq {s : State F} (h : s.WellFormed) : s.clone = some s := by
  have hargs : s.arguments.take s.info.argumentCount = s.arguments := by
    rw [h.argument_count, List.take_length]
  unfold clone
  rw [hargs, if_neg (by rw [h.argument_count]; exact lt_irrefl _)]
  simp only [Option.bind_eq_bind]
  rw [clone_functions s.functions h.functions_valid]
  simp only [Option.bind_some, aliasClone_eq h.aliases_wf, clone_hashes, setParameters]
  rw [Table.foldl_put h.functions_nodup, Table.foldl_put h.hashes_nodup]

theorem WellFormed.save_eq {s : State F} (h : s.WellFormed) : s.save = some s := h.clone_eq

/-! ### Operations keep the shape -/

theorem name_mem_of_find {vars : List Variable} {name : Bytes} {v : Variable}
    (h : findVariable vars name = some v) : v ∈ vars ∧ v.name = name :=
  ⟨List.mem_of_find?_eq_some h, by simpa using List.find?_some h⟩

theorem not_mem_of_find_none {vars : List Variable} {name : Bytes}
    (h : findVariable vars name = none) : name ∉ vars.map Variable.name := by
  intro hmem
  obtain ⟨v, hv, hname⟩ := List.mem_map.mp hmem
  have := List.find?_eq_none.mp h v hv
  simp [hname] at this

/-- Updating a variable in place keeps the list of names. -/
theorem names_modifyVariable {f : Variable → Variable} (hf : ∀ v, (f v).name = v.name)
    (name : Bytes) (vars : List Variable) :
    (modifyVariable name f vars).map Variable.name = vars.map Variable.name := by
  induction vars with
  | nil => rfl
  | cons v vars ih =>
    simp only [modifyVariable]
    split
    · simp [hf]
    · simp [ih]

theorem names_unlinkVariable (name : Bytes) (vars : List Variable) :
    ((unlinkVariable name vars).map Variable.name).Sublist (vars.map Variable.name) := by
  induction vars with
  | nil => simp [unlinkVariable]
  | cons v vars ih =>
    simp only [unlinkVariable]
    split
    · simp
    · simpa using ih

/-- The unlinked name is gone, where names are distinct. -/
theorem notMem_unlinkVariable (name : Bytes) {vars : List Variable}
    (h : (vars.map Variable.name).Nodup) :
    name ∉ (unlinkVariable name vars).map Variable.name := by
  induction vars with
  | nil => simp [unlinkVariable]
  | cons v vars ih =>
    rw [List.map_cons, List.nodup_cons] at h
    simp only [unlinkVariable]
    split
    · next hv =>
      have hname : v.name = name := by simpa using hv
      exact hname ▸ h.1
    · next hv =>
      have hname : v.name ≠ name := by simpa using hv
      simp only [List.map_cons, List.mem_cons, not_or]
      exact ⟨Ne.symm hname, ih h.2⟩

/-- The part of the invariant about the variables. -/
def GoodNames (names : List Bytes) : Prop := (∀ n ∈ names, validName n = true) ∧ names.Nodup

theorem goodNames_sublist {names names' : List Bytes} (h : GoodNames names)
    (hs : names'.Sublist names) : GoodNames names' :=
  ⟨fun n hn => h.1 n (hs.subset hn), h.2.sublist hs⟩

theorem goodNames_cons {names : List Bytes} {name : Bytes} (h : GoodNames names)
    (hv : validName name = true) (hn : name ∉ names) : GoodNames (name :: names) := by
  refine ⟨fun n hmem => ?_, List.nodup_cons.mpr ⟨hn, h.2⟩⟩
  rcases List.mem_cons.mp hmem with rfl | hmem
  · exact hv
  · exact h.1 n hmem

theorem WellFormed.goodNames {s : State F} (h : s.WellFormed) :
    GoodNames (s.vars.map Variable.name) := by
  refine ⟨fun n hn => ?_, h.variables_nodup⟩
  obtain ⟨v, hv, rfl⟩ := List.mem_map.mp hn
  exact h.variables_valid v hv

/-- A state that differs from a well-formed one in variables and scalars only. -/
theorem WellFormed.of_variables {s s' : State F} (h : s.WellFormed)
    (hnames : GoodNames (s'.vars.map Variable.name)) (hf : s'.functions = s.functions)
    (hh : s'.hashes = s.hashes ∨ s'.hashes = []) (ha : s'.aliases = s.aliases)
    (hargs : s'.arguments = s.arguments)
    (hcount : s'.info.argumentCount = s.info.argumentCount) : s'.WellFormed where
  variables_valid v hv := hnames.1 _ (List.mem_map_of_mem hv)
  variables_nodup := hnames.2
  functions_valid := hf ▸ h.functions_valid
  functions_nodup := hf ▸ h.functions_nodup
  hashes_nodup := by
    rcases hh with hh | hh
    · rw [hh]; exact h.hashes_nodup
    · rw [hh]; exact List.nodup_nil
  aliases_wf := ha ▸ h.aliases_wf
  argument_count := by rw [hcount, hargs]; exact h.argument_count

theorem WellFormed.withVars {s : State F} (h : s.WellFormed) {vars : List Variable}
    (hnames : GoodNames (vars.map Variable.name)) : { s with vars := vars }.WellFormed :=
  h.of_variables hnames rfl (Or.inl rfl) rfl rfl rfl

theorem assigned_fields (s : State F) (name : Bytes) :
    (s.assigned name).vars = s.vars ∧ (s.assigned name).functions = s.functions ∧
    ((s.assigned name).hashes = s.hashes ∨ (s.assigned name).hashes = []) ∧
    (s.assigned name).aliases = s.aliases ∧ (s.assigned name).arguments = s.arguments ∧
    (s.assigned name).info = s.info ∧ (s.assigned name).arg0 = s.arg0 ∧
    (s.assigned name).managesLocale = s.managesLocale := by
  unfold assigned hashClear
  simp only
  split <;> split <;> simp

theorem WellFormed.assigned {s : State F} (h : s.WellFormed) (name : Bytes) :
    (s.assigned name).WellFormed := by
  obtain ⟨hv, hf, hh, ha, hargs, hinfo, -, -⟩ := assigned_fields s name
  exact h.of_variables (by rw [hv]; exact h.goodNames) hf hh ha hargs (by rw [hinfo])

theorem WellFormed.setVariable {s : State F} (h : s.WellFormed) (name value : Bytes) :
    (s.setVariable name value).2.WellFormed := by
  unfold State.setVariable
  split
  · exact h
  · next hv =>
    have hvalid : validName name = true := by simpa using hv
    split
    · next v hfind =>
      split
      · exact h
      · refine assigned (h.withVars ?_) name
        rw [names_modifyVariable]
        · exact h.goodNames
        · intro v; rfl
    · next hfind =>
      refine assigned (h.withVars ?_) name
      exact goodNames_cons h.goodNames hvalid (not_mem_of_find_none hfind)

theorem WellFormed.updateAttributes {s : State F} (h : s.WellFormed) (name : Bytes)
    (set clear : UInt32) : (s.updateAttributes name set clear).2.WellFormed := by
  unfold State.updateAttributes
  split
  · exact h
  · next hbad =>
    have hvalid : validName name = true := by
      simp only [Bool.or_eq_true, not_or] at hbad
      simpa using hbad.1.1
    split
    · split
      · exact h
      · refine h.withVars ?_
        rw [names_modifyVariable]
        · exact h.goodNames
        · intro v; rfl
    · next hfind =>
      simp only
      split
      · exact h
      · refine h.withVars ?_
        exact goodNames_cons h.goodNames hvalid (not_mem_of_find_none hfind)

theorem WellFormed.unsetVariable {s : State F} (h : s.WellFormed) (name : Bytes) :
    (s.unsetVariable name).2.WellFormed := by
  unfold State.unsetVariable
  split
  · exact h
  · split
    · exact h
    · split
      · exact h
      · have hgood := goodNames_sublist h.goodNames (names_unlinkVariable name s.vars)
        simp only
        split
        · exact h.of_variables hgood rfl (Or.inr rfl) rfl rfl rfl
        · exact h.of_variables hgood rfl (Or.inl rfl) rfl rfl rfl

/-- Saved entries carry valid names. -/
theorem saveVariables_valid (s : State F) (names : List Bytes) :
    ∀ e ∈ (s.saveVariables names).2, validName e.var.name = true := by
  unfold saveVariables
  split
  · simp
  · next hall =>
    have hvalid : ∀ n ∈ names, validName n = true := by simpa using hall
    -- every entry comes from one of the names
    have key : ∀ (names : List Bytes) (acc : List VariableSave),
        (∀ n ∈ names, validName n = true) → (∀ e ∈ acc, validName e.var.name = true) →
        ∀ e ∈ names.foldl s.saveVariable acc, validName e.var.name = true := by
      intro names
      induction names with
      | nil => intro acc _ hacc; exact hacc
      | cons n names ih =>
        intro acc hn hacc
        refine ih _ (fun m hm => hn m (List.mem_cons_of_mem _ hm)) ?_
        have hn' := hn n List.mem_cons_self
        unfold saveVariable
        split
        · exact hacc
        · split
          · intro e he
            rcases List.mem_cons.mp he with rfl | he
            · exact hn'
            · exact hacc e he
          · intro e he
            rcases List.mem_cons.mp he with rfl | he
            · exact hn'
            · exact hacc e he
    exact key names [] hvalid (by simp)

theorem WellFormed.restoreVariable {s : State F} (h : s.WellFormed) {entry : VariableSave}
    (he : validName entry.var.name = true) : (s.restoreVariable entry).WellFormed := by
  have hgone := notMem_unlinkVariable entry.var.name h.variables_nodup
  have hgood := goodNames_sublist h.goodNames (names_unlinkVariable entry.var.name s.vars)
  have hlink : GoodNames ((if entry.present then
      entry.var :: unlinkVariable entry.var.name s.vars
      else unlinkVariable entry.var.name s.vars).map Variable.name) := by
    split
    · exact goodNames_cons hgood he hgone
    · exact hgood
  unfold State.restoreVariable
  by_cases hp : (entry.var.name == ascii "PATH") = true
  · simp only [hp, if_true]
    exact h.of_variables hlink rfl (Or.inr rfl) rfl rfl rfl
  · simp only [hp, if_false, Bool.false_eq_true]
    exact h.withVars hlink

theorem WellFormed.restoreVariables {s : State F} (h : s.WellFormed) (saves : List VariableSave)
    (hs : ∀ e ∈ saves, validName e.var.name = true) : (s.restoreVariables saves).WellFormed := by
  unfold State.restoreVariables
  induction saves generalizing s with
  | nil => exact h
  | cons e saves ih =>
    exact ih (h.restoreVariable (hs e List.mem_cons_self))
      fun e' he' => hs e' (List.mem_cons_of_mem _ he')

theorem WellFormed.setParameters {s : State F} (h : s.WellFormed) (arguments : List Bytes) :
    (s.setParameters arguments).WellFormed :=
  { h with argument_count := rfl }

theorem WellFormed.popParameters {s : State F} (h : s.WellFormed) {save : List Bytes × ℕ}
    (hs : save.2 = save.1.length) : (s.popParameters save).WellFormed :=
  { h with argument_count := hs }

theorem WellFormed.setFunction {s : State F} (h : s.WellFormed) (name : Bytes) (f : Option F) :
    (s.setFunction name f).2.WellFormed := by
  unfold State.setFunction
  split
  · exact h
  · next hv =>
    have hvalid : validName name = true := by simpa using hv
    split
    · refine { h with functions_valid := fun n hn => ?_, functions_nodup := ?_ }
      · exact h.functions_valid n ((Table.keys_erase_sublist name s.functions).subset hn)
      · exact h.functions_nodup.sublist (Table.keys_erase_sublist name s.functions)
    · refine { h with functions_valid := fun n hn => ?_, functions_nodup := ?_ }
      · rcases Table.mem_keys_put.mp hn with rfl | hn
        · exact hvalid
        · exact h.functions_valid n hn
      · exact Table.nodup_keys_put h.functions_nodup

theorem WellFormed.hashSet {s : State F} (h : s.WellFormed) (name path : Bytes) :
    (s.hashSet name path).WellFormed :=
  { h with hashes_nodup := Table.nodup_keys_put h.hashes_nodup }

theorem WellFormed.hashClear {s : State F} (h : s.WellFormed) : s.hashClear.WellFormed :=
  { h with hashes_nodup := List.nodup_nil }

end State

theorem Alias.WellFormed.nil : Alias.WellFormed [] := ⟨by simp, Table.sorted_nil⟩

theorem Alias.WellFormed.set {aliases aliases' : List (Bytes × Bytes)} (h : Alias.WellFormed aliases)
    {name value : Bytes} (hset : Alias.set aliases name value = some aliases') :
    Alias.WellFormed aliases' := by
  unfold Alias.set at hset
  split at hset
  · next hv =>
    cases hset
    refine ⟨fun n hn => ?_, Table.sorted_insert below_trans below_total h.sorted⟩
    rcases Table.mem_keys_insert.mp hn with rfl | hn
    · exact hv
    · exact h.valid n hn
  · cases hset

theorem Alias.WellFormed.unset {aliases aliases' : List (Bytes × Bytes)}
    (h : Alias.WellFormed aliases) {name : Bytes} (hset : Alias.unset aliases name = some aliases') :
    Alias.WellFormed aliases' := by
  unfold Alias.unset at hset
  split at hset
  · cases hset
    exact ⟨fun n hn => h.valid n ((Table.keys_erase_sublist name aliases).subset hn),
      Table.sorted_erase h.sorted⟩
  · cases hset

namespace State

variable {F : Type}

/-! ### Reachability -/

/-- What `csh_state_create` starts from before it imports the environment. -/
def initial (arg0 : Bytes) (arguments : List Bytes) : State F :=
  ({ arg0 } : State F).setParameters arguments

/-- One entry of `import_environment`: entries without `=` or with an invalid name
are ignored. -/
def importEntry (s : State F) (entry : Bytes) : State F :=
  let name := entry.takeWhile (· != byteOf '=')
  if entry.contains (byteOf '=') && validName name then
    let s := (s.setVariable name (entry.drop (name.length + 1))).2
    (s.updateAttributes name Attr.exported 0).2
  else s

/-- `csh_state_create`. -/
def create (arg0 : Bytes) (arguments envp : List Bytes) (pid : ℤ) (mode : InputMode)
    (options : UInt32) (interactive : Bool) : State F :=
  let s := envp.foldl importEntry (initial arg0 arguments)
  { s with info := { s.info with shellPid := pid, mode,
                                 options := options ||| if interactive then Opt.interactive else 0 } }

/-- **The states a shell can be in.**  Saved variables, saved parameters and
checkpoints may come from any other reachable state. -/
inductive Reachable : State F → Prop
  | create (arg0 arguments envp pid mode options interactive) :
      Reachable (create arg0 arguments envp pid mode options interactive)
  | setVariable {s} (h : Reachable s) (name value) : Reachable (s.setVariable name value).2
  | updateAttributes {s} (h : Reachable s) (name set clear) :
      Reachable (s.updateAttributes name set clear).2
  | unsetVariable {s} (h : Reachable s) (name) : Reachable (s.unsetVariable name).2
  | restoreVariables {s saved} (h : Reachable s) (h' : Reachable saved) (names) :
      Reachable (s.restoreVariables (saved.saveVariables names).2)
  | setParameters {s} (h : Reachable s) (arguments) : Reachable (s.setParameters arguments)
  | popParameters {s saved} (h : Reachable s) (h' : Reachable saved) (arguments) :
      Reachable (s.popParameters (saved.pushParameters arguments).2)
  | setStatus {s} (h : Reachable s) (status) : Reachable (s.setStatus status).2
  | setBackground {s} (h : Reachable s) (pid) : Reachable (s.setBackground pid).2
  | updateOptions {s} (h : Reachable s) (set clear) : Reachable (s.updateOptions set clear).2
  | setErrexitIgnored {s} (h : Reachable s) (depth) : Reachable (s.setErrexitIgnored depth)
  | setFunctionDepth {s} (h : Reachable s) (depth) : Reachable (s.setFunctionDepth depth)
  | setSourceDepth {s} (h : Reachable s) (depth) : Reachable (s.setSourceDepth depth)
  | setGetoptsOffset {s} (h : Reachable s) (offset) : Reachable (s.setGetoptsOffset offset)
  | setFunction {s} (h : Reachable s) (name function) : Reachable (s.setFunction name function).2
  | hashSet {s} (h : Reachable s) (name path) : Reachable (s.hashSet name path)
  | hashClear {s} (h : Reachable s) : Reachable s.hashClear
  | withAliases {s} (h : Reachable s) : Reachable s.withAliases
  | setAlias {s aliases aliases'} (h : Reachable s) (ha : s.aliases = some aliases) {name value}
      (hset : Alias.set aliases name value = some aliases') :
      Reachable { s with aliases := some aliases' }
  | unsetAlias {s aliases aliases'} (h : Reachable s) (ha : s.aliases = some aliases) {name}
      (hset : Alias.unset aliases name = some aliases') :
      Reachable { s with aliases := some aliases' }
  | clearAliases {s aliases} (h : Reachable s) (ha : s.aliases = some aliases) :
      Reachable { s with aliases := some [] }
  | manageLocale {s} (h : Reachable s) : Reachable { s with managesLocale := true }
  | clone {s copy} (h : Reachable s) (hc : s.clone = some copy) : Reachable copy
  | restore {s saved checkpoint} (h : Reachable s) (h' : Reachable saved)
      (hc : saved.save = some checkpoint) : Reachable (s.restore checkpoint)

theorem wellFormed_initial (arg0 : Bytes) (arguments : List Bytes) :
    (initial arg0 arguments : State F).WellFormed where
  variables_valid := by simp [initial, setParameters]
  variables_nodup := by simp [initial, setParameters]
  functions_valid := by simp [initial, setParameters]
  functions_nodup := by simp [initial, setParameters]
  hashes_nodup := by simp [initial, setParameters]
  aliases_wf := by simp [initial, setParameters]
  argument_count := rfl

theorem WellFormed.importEntry {s : State F} (h : s.WellFormed) (entry : Bytes) :
    (s.importEntry entry).WellFormed := by
  unfold State.importEntry
  simp only
  split
  · exact (h.setVariable _ _).updateAttributes _ _ _
  · exact h

theorem wellFormed_create (arg0 : Bytes) (arguments envp : List Bytes) (pid : ℤ) (mode : InputMode)
    (options : UInt32) (interactive : Bool) :
    (create arg0 arguments envp pid mode options interactive : State F).WellFormed := by
  have hfold : ∀ (envp : List Bytes) (s : State F), s.WellFormed →
      (envp.foldl State.importEntry s).WellFormed := by
    intro envp
    induction envp with
    | nil => intro s h; exact h
    | cons e envp ih => intro s h; exact ih _ (h.importEntry e)
  have h := hfold envp _ (wellFormed_initial (F := F) arg0 arguments)
  exact { h with argument_count := h.argument_count }

/-- **Every operation keeps the shape.** -/
theorem Reachable.wellFormed {s : State F} (h : s.Reachable) : s.WellFormed := by
  induction h with
  | create => exact wellFormed_create _ _ _ _ _ _ _
  | setVariable _ name value ih => exact ih.setVariable name value
  | updateAttributes _ name set clear ih => exact ih.updateAttributes name set clear
  | unsetVariable _ name ih => exact ih.unsetVariable name
  | restoreVariables _ _ names ih _ =>
    exact ih.restoreVariables _ (saveVariables_valid _ names)
  | setParameters _ arguments ih => exact ih.setParameters arguments
  | popParameters _ _ arguments ih ih' => exact ih.popParameters ih'.argument_count
  | setStatus _ status ih =>
    unfold State.setStatus
    split
    · exact ih
    · exact { ih with }
  | setBackground _ pid ih =>
    unfold State.setBackground
    split
    · exact ih
    · exact { ih with }
  | updateOptions _ set clear ih =>
    unfold State.updateOptions
    split
    · exact ih
    · exact { ih with }
  | setErrexitIgnored _ depth ih => exact { ih with }
  | setFunctionDepth _ depth ih => exact { ih with }
  | setSourceDepth _ depth ih => exact { ih with }
  | setGetoptsOffset _ offset ih => exact { ih with }
  | setFunction _ name f ih => exact ih.setFunction name f
  | hashSet _ name path ih => exact ih.hashSet name path
  | hashClear _ ih => exact ih.hashClear
  | @withAliases s _ ih =>
    refine { ih with aliases_wf := fun aliases ha => ?_ }
    cases hs : s.aliases with
    | none =>
      obtain rfl : [] = aliases := by simpa [State.withAliases, hs] using ha
      exact .nil
    | some a =>
      obtain rfl : a = aliases := by simpa [State.withAliases, hs] using ha
      exact ih.aliases_wf a hs
  | @setAlias s aliases aliases' _ ha name value hset ih =>
    refine { ih with aliases_wf := fun a h => ?_ }
    obtain rfl : aliases' = a := by simpa using h
    exact (ih.aliases_wf aliases ha).set hset
  | @unsetAlias s aliases aliases' _ ha name hset ih =>
    refine { ih with aliases_wf := fun a h => ?_ }
    obtain rfl : aliases' = a := by simpa using h
    exact (ih.aliases_wf aliases ha).unset hset
  | clearAliases _ _ ih =>
    refine { ih with aliases_wf := fun a h => ?_ }
    obtain rfl : [] = a := by simpa using h
    exact .nil
  | manageLocale _ ih => exact { ih with }
  | clone _ hc ih =>
    rw [ih.clone_eq] at hc
    cases hc
    exact ih
  | restore _ _ hc _ ih' =>
    rw [ih'.save_eq] at hc
    cases hc
    exact ih'

/-- A checkpoint of a reachable state is the state. -/
theorem Reachable.save_eq {s : State F} (h : s.Reachable) : s.save = some s := h.wellFormed.save_eq

end State

end CShell
