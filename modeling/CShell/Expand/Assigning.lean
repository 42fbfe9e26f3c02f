import CShell.Arithmetic.Model
import CShell.Expand.Prepare
import CShell.State.Reachable

/-!
# Expansions assign and append

An expansion may assign variables, through `=` in braces and in arithmetic, and export
them under `allexport`; if it fails, the state is the checkpoint that was taken before.
It does nothing else to a state: the options and the counters are as they were, and so
are the aliases and the functions of a reachable state.

To its output it appends spans, and only where the output is for arguments new fields.

One walk over the nested calls shows both, with a predicate on the texts that are assigned
and appended.

## Main definitions

* `State.Assigned s s'` — between the two states variables were assigned and exported,
  and checkpoints put back.
* `State.AssignedFrom q s s'` — the same, the values assigned satisfying `q`.
* `Expand.Grows q out out'` — spans with texts of `q` were appended, and new fields where
  the output is for arguments.
* `Expand.Supplies` — where the texts of an expansion come from.

## Main results

* `expandWord_assigned` — **the evaluators only assign.**
* `prepareFields_assigned`, `prepareScalar_assigned` — nor does a prepared word.
* `range_after` — a range assigns and appends texts of `q` only.

## References

`src/arith.c`, `src/expand.c`, `src/prepare.c`.
-/

namespace CShell

open Expand List

variable {F : Type}

/-! ### Assignments -/

variable {s s' : State F}

namespace State

/-- The second state is the first one with variables assigned and exported, or a
checkpoint of such a state. -/
inductive Assigned : State F → State F → Prop
  | refl (s : State F) : Assigned s s
  | set {s s' : State F} (h : Assigned s s') (name value : Bytes) : Assigned s (s'.setVariable name value).2
  | mark {s s' : State F} (h : Assigned s s') (name : Bytes) :
      Assigned s (s'.updateAttributes name Attr.exported 0).2
  | copy {s s' checkpoint : State F} (h : Assigned s s') (hsave : s'.save = some checkpoint) :
      Assigned s checkpoint

theorem Assigned.trans {s s' s'' : State F} (h : s.Assigned s') (h' : s'.Assigned s'') :
    s.Assigned s'' := by
  induction h' with
  | refl => exact h
  | set _ name value ih => exact .set ih name value
  | mark _ name ih => exact .mark ih name
  | copy _ hsave ih => exact .copy ih hsave

theorem Assigned.reachable (h : s.Assigned s') (hs : s.Reachable) : s'.Reachable := by
  induction h with
  | refl => exact hs
  | set _ name value ih => exact .setVariable ih name value
  | mark _ name ih => exact .updateAttributes ih name _ _
  | copy _ hsave ih =>
    rw [ih.save_eq] at hsave
    exact Option.some.inj hsave ▸ ih

/-- The values that were assigned satisfy `q`. -/
inductive AssignedFrom (q : Bytes → Prop) : State F → State F → Prop
  | refl (s : State F) : AssignedFrom q s s
  | set {s s' : State F} (h : AssignedFrom q s s') (name : Bytes) {value : Bytes} (hvalue : q value) :
      AssignedFrom q s (s'.setVariable name value).2
  | mark {s s' : State F} (h : AssignedFrom q s s') (name : Bytes) :
      AssignedFrom q s (s'.updateAttributes name Attr.exported 0).2
  | copy {s s' checkpoint : State F} (h : AssignedFrom q s s') (hsave : s'.save = some checkpoint) :
      AssignedFrom q s checkpoint

variable {q q' : Bytes → Prop}

theorem AssignedFrom.trans {s s' s'' : State F} (h : s.AssignedFrom q s') (h' : s'.AssignedFrom q s'') :
    s.AssignedFrom q s'' := by
  induction h' with
  | refl => exact h
  | set _ name hvalue ih => exact .set ih name hvalue
  | mark _ name ih => exact .mark ih name
  | copy _ hsave ih => exact .copy ih hsave

theorem AssignedFrom.mono (h : s.AssignedFrom q s') (hq : ∀ text, q text → q' text) :
    s.AssignedFrom q' s' := by
  induction h with
  | refl => exact .refl _
  | set _ name hvalue ih => exact .set ih name (hq _ hvalue)
  | mark _ name ih => exact .mark ih name
  | copy _ hsave ih => exact .copy ih hsave

theorem AssignedFrom.assigned (h : s.AssignedFrom q s') : s.Assigned s' := by
  induction h with
  | refl => exact .refl _
  | set _ name _ ih => exact .set ih name _
  | mark _ name ih => exact .mark ih name
  | copy _ hsave ih => exact .copy ih hsave

theorem rest_setVariable (s : State F) (name value : Bytes) :
    (s.setVariable name value).2.info = s.info ∧ (s.setVariable name value).2.aliases = s.aliases ∧
      (s.setVariable name value).2.functions = s.functions := by
  have hassigned : ∀ vars, let s' := State.assigned { s with vars } name
      s'.info = s.info ∧ s'.aliases = s.aliases ∧ s'.functions = s.functions := by
    intro vars
    obtain ⟨-, hf, -, ha, -, hi, -⟩ := assigned_fields { s with vars } name
    exact ⟨hi, ha, hf⟩
  unfold State.setVariable
  split
  · exact ⟨rfl, rfl, rfl⟩
  · split
    · split
      · exact ⟨rfl, rfl, rfl⟩
      · exact hassigned _
    · exact hassigned _

theorem rest_updateAttributes (s : State F) (name : Bytes) (set clear : UInt32) :
    (s.updateAttributes name set clear).2.info = s.info ∧
      (s.updateAttributes name set clear).2.aliases = s.aliases ∧
      (s.updateAttributes name set clear).2.functions = s.functions := by
  unfold State.updateAttributes
  split
  · exact ⟨rfl, rfl, rfl⟩
  · split
    · split
      all_goals exact ⟨rfl, rfl, rfl⟩
    · dsimp only
      split
      all_goals exact ⟨rfl, rfl, rfl⟩

theorem info_save {s checkpoint : State F} (h : s.save = some checkpoint) : checkpoint.info = s.info := by
  unfold State.save State.clone at h
  dsimp only at h
  split at h
  · cases h
  · obtain ⟨functions, -, h⟩ := Option.bind_eq_some_iff.mp h
    obtain ⟨aliases, -, h⟩ := Option.bind_eq_some_iff.mp h
    rw [← Option.some.inj h]

/-- The options and the counters are as they were. -/
theorem Assigned.info (h : s.Assigned s') : s'.info = s.info := by
  induction h with
  | refl => rfl
  | set _ name value ih => exact (rest_setVariable _ name value).1.trans ih
  | mark _ name ih => exact (rest_updateAttributes _ name _ _).1.trans ih
  | copy _ hsave ih => exact (info_save hsave).trans ih

/-- What is no variable is as it was. -/
theorem Assigned.rest (h : s.Assigned s') (hs : s.Reachable) :
    s'.aliases = s.aliases ∧ s'.functions = s.functions := by
  induction h with
  | refl => exact ⟨rfl, rfl⟩
  | set _ name value ih =>
    obtain ⟨-, ha, hf⟩ := rest_setVariable _ name value
    exact ⟨ha.trans ih.1, hf.trans ih.2⟩
  | mark _ name ih =>
    obtain ⟨-, ha, hf⟩ := rest_updateAttributes _ name Attr.exported 0
    exact ⟨ha.trans ih.1, hf.trans ih.2⟩
  | copy h' hsave ih =>
    rw [(h'.reachable hs).save_eq] at hsave
    exact Option.some.inj hsave ▸ ih

end State

/-! ### Arithmetic -/

namespace Arithmetic

/-- The text of a number. -/
def IsDecimal (text : Bytes) : Prop := ∃ number, text = decimal number

/-- Whatever the call returns, the state was only assigned to, and numbers only. -/
def Assigns (s : State F) (x : Option (Parser F × Value)) : Prop :=
  ∀ q, x = some q → s.AssignedFrom IsDecimal q.1.state

theorem Assigns.none (s : State F) : Assigns s none := fun _ h => by cases h

theorem Assigns.some {s : State F} {q : Parser F × Value} (h : s.AssignedFrom IsDecimal q.1.state) :
    Assigns s (some q) := fun _ hq => Option.some.inj hq ▸ h

theorem Assigns.bind {x : Option (Parser F × Value)}
    {f : Parser F × Value → Option (Parser F × Value)} (hx : Assigns s x)
    (hf : ∀ q, Assigns q.1.state (f q)) : Assigns s (x >>= f) := by
  intro q hq
  obtain ⟨r, hr, hq⟩ := Option.bind_eq_some_iff.mp hq
  exact (hx r hr).trans (hf r q hq)

theorem Assigns.after {x : Option (Parser F × Value)} (h : Assigns s' x)
    (hs : s.AssignedFrom IsDecimal s') : Assigns s x := fun q hq => hs.trans (h q hq)

theorem Assigns.ite {c : Prop} [Decidable c] {x y : Option (Parser F × Value)}
    (hx : Assigns s x) (hy : Assigns s y) : Assigns s (if c then x else y) := by
  split
  · exact hx
  · exact hy

@[simp] theorem state_readValue (p : Parser F) (v : Value) (execute : Bool) :
    (readValue p v execute).1.state = p.state := by
  unfold readValue
  split
  · rfl
  · split
    · split
      · split <;> rfl
      · rfl
      · split <;> rfl
    · split <;> rfl

@[simp] theorem state_operation (p : Parser F) (op : Token) (a b : ℤ) :
    (operation p op a b).1.state = p.state := by
  unfold operation
  split <;> rfl

@[simp] theorem state_applyUnary (p : Parser F) (op : Token) (v : Value) (execute : Bool) :
    (applyUnary p op v execute).1.state = p.state := by
  unfold applyUnary
  split
  · split
    · rfl
    · dsimp only
      split
      · exact state_readValue p v execute
      · exact state_readValue p v execute
  · rfl

theorem store_assigned (s : State F) (options : UInt32) (name : Bytes) (number : ℤ) :
    s.AssignedFrom IsDecimal (store s options name number).2 := by
  unfold store
  have hset := State.AssignedFrom.set (.refl s) name (show IsDecimal (decimal number) from ⟨number, rfl⟩)
  split
  · next s' heq =>
    rw [heq] at hset
    split
    · exact .mark hset name
    · exact hset
  · exact hset

theorem assign_assigned (p : Parser F) (x : Bytes) (n : ℤ) :
    p.state.AssignedFrom IsDecimal (assign p x n).state := by
  have hstore := store_assigned p.state p.options x n
  unfold assign
  split
  all_goals
    next heq =>
    rw [heq] at hstore
    exact hstore

/-- The three functions assign, whatever they read. -/
theorem assigns_all (n : ℕ) :
    (∀ (p : Parser F) execute, Assigns p.state (primary n p execute)) ∧
    (∀ (p : Parser F) minimum execute, Assigns p.state (expression n p minimum execute)) ∧
    (∀ (p : Parser F) left minimum execute, Assigns p.state (climb n p left minimum execute)) := by
  induction n with
  | zero => exact ⟨fun _ _ => .none _, fun _ _ _ => .none _, fun _ _ _ _ => .none _⟩
  | succ n ih =>
    obtain ⟨ihp, ihe, ihc⟩ := ih
    refine ⟨fun p execute => ?_, fun p minimum execute => ?_, fun p left minimum execute => ?_⟩
    · unfold primary
      split
      · split
        all_goals exact .some (.refl _)
      · exact .some (.refl _)
      · refine Assigns.bind (ihe (nextToken p) _ _) fun q => ?_
        refine Assigns.ite (Assigns.ite ?_ ?_) ?_
        all_goals exact .some (.refl _)
      · refine Assigns.ite ?_ (.some (.refl _))
        refine Assigns.bind (ihe (nextToken p) _ _) fun q => ?_
        exact .some (by rw [state_applyUnary]; exact .refl _)
    · unfold expression
      refine Assigns.ite (.some (.refl _)) ?_
      exact Assigns.bind (ihp p _) fun q => ihc q.1 _ _ _
    · unfold climb
      refine Assigns.ite (Assigns.ite (.some (.refl _)) ?_) (.some (.refl _))
      -- reading an operand leaves the state alone
      have hread : (if p.token ≠ .assign then readValue (nextToken p) left execute
          else (nextToken p, 0)).1.state = p.state := by
        split
        · exact state_readValue _ _ _
        · rfl
      generalize (if p.token ≠ .assign then readValue (nextToken p) left execute
        else (nextToken p, 0)) = t at hread ⊢
      obtain ⟨p₁, lhs⟩ := t
      dsimp only at hread ⊢
      rw [← hread]
      refine Assigns.ite ?_ ?_
      · refine Assigns.bind (ihe p₁ _ _) fun q => ?_
        have hyes := state_readValue q.1 q.2 (execute && lhs != 0)
        generalize readValue q.1 q.2 (execute && lhs != 0) = t at hyes ⊢
        obtain ⟨p₂, yes⟩ := t
        dsimp only at hyes ⊢
        rw [← hyes]
        refine Assigns.ite (.some (.refl _)) (Assigns.ite (.some (.refl _)) ?_)
        refine Assigns.bind (ihe (nextToken p₂) _ _) fun q' => ?_
        rw [← state_readValue q'.1 q'.2 (execute && lhs == 0)]
        exact ihc _ _ _ _
      · refine Assigns.bind (ihe p₁ _ _) fun q => ?_
        generalize (execute && !(p.token == .and && lhs == 0) && !(p.token == .or && lhs != 0)) = rx
        have hright := state_readValue q.1 q.2 rx
        generalize readValue q.1 q.2 rx = t at hright ⊢
        obtain ⟨p₂, rhs⟩ := t
        dsimp only at hright ⊢
        rw [← hright]
        refine Assigns.ite (Assigns.ite ?_ ?_) (ihc _ _ _ _)
        · have hop : (if p.token = .assign then (p₂, rhs)
              else operation p₂ (assignmentOperation p.token) lhs rhs).1.state = p₂.state := by
            split
            · rfl
            · exact state_operation _ _ _ _
          generalize (if p.token = .assign then (p₂, rhs)
              else operation p₂ (assignmentOperation p.token) lhs rhs) = t at hop ⊢
          obtain ⟨p₃, number⟩ := t
          dsimp only at hop ⊢
          rw [← hop]
          refine (ihc _ _ _ _).after ?_
          split
          · exact assign_assigned _ _ _
          · exact .refl _
        · rw [← state_operation p₂ p.token lhs rhs]
          exact ihc _ _ _ _

theorem run_assigned {fuel : ℕ} {p : Parser F} {execute : Bool} {q : Parser F × ℤ}
    (h : run fuel p execute = some q) : p.state.AssignedFrom IsDecimal q.1.state := by
  -- what stands behind the expression reads its value
  have hend : ∀ (p₁ : Parser F) (v : Value),
      (let p₂ := if p₁.error = .ok ∧ p₁.token ≠ .eot then { p₁ with error := .syntaxError } else p₁
       if p₂.error = .ok then some (readValue p₂ v execute) else some (p₂, 0)) = some q →
      q.1.state = p₁.state := by
    intro p₁ v hq
    have hset : (if p₁.error = .ok ∧ p₁.token ≠ .eot then { p₁ with error := .syntaxError }
        else p₁).state = p₁.state := by
      split <;> rfl
    dsimp only at hq
    generalize (if p₁.error = .ok ∧ p₁.token ≠ .eot then { p₁ with error := .syntaxError }
      else p₁ : Parser F) = p₂ at hset hq
    by_cases hok : p₂.error = .ok
    · rw [if_pos hok] at hq
      rw [← Option.some.inj hq, state_readValue, hset]
    · rw [if_neg hok] at hq
      rw [← Option.some.inj hq, hset]
  unfold run at h
  dsimp only at h
  split at h
  · obtain ⟨r, hr, hq⟩ := Option.bind_eq_some_iff.mp h
    rw [hend r.1 r.2 hq]
    exact (assigns_all fuel).2.1 (nextToken p) 1 execute r hr
  · obtain ⟨r, hr, hq⟩ := Option.bind_eq_some_iff.mp h
    rw [hend r.1 r.2 hq, ← Option.some.inj hr]
    exact .refl _

/-- An arithmetic evaluation only assigns numbers. -/
theorem arithEval_assignedFrom (s : State F) (text : Bytes) :
    s.AssignedFrom IsDecimal (arithEval s text).state := by
  unfold arithEval
  split
  · exact .refl s
  · next checkpoint hsave =>
    dsimp only
    split
    · exact .copy (.refl s) hsave
    · next hrun =>
      split
      · exact run_assigned hrun
      · exact .copy (.refl s) hsave

end Arithmetic

/-! ### Words -/

namespace Expand

@[simp] theorem state_failUnreported (work : Work F) (word : Token) (code : ExpandResult)
    (fragment : Option ℕ) (message : Bytes) :
    (work.failUnreported word code fragment message).state = work.state := by
  unfold Work.failUnreported
  split <;> rfl

theorem state_reported (r : Reply F) (word : Token) (index : ℕ) (message : String) :
    (Reply.reported word r index message).work.state = r.work.state := by
  unfold Reply.reported
  split
  · rfl
  · exact state_failUnreported _ _ _ _ _

/-- Spans with texts of `q` were appended, and new fields where the output is for arguments. -/
inductive Grows (q : Bytes → Prop) (out : Expansion) : Expansion → Prop
  | refl : Grows q out out
  | append {out' : Expansion} (h : Grows q out out') {bytes : Bytes} (quote : Quote) (origin : ExpandOrigin)
      {keep : Bool} (hbytes : q bytes) (hkeep : keep = true → quote ≠ .none) :
      Grows q out (append out' bytes quote origin keep)
  | newField {out' : Expansion} (h : Grows q out out') (hcontext : out'.context = .argument) :
      Grows q out (newField out')

/-- Where the texts of an expansion come from: the spelling of the word, its decoded
regions, the variables and parameters of states that satisfy an invariant, home
directories, and whatever else has no NUL. -/
structure Supplies (env : ExpandEnv) (word : Token) (prepared : Prepared) (q : Bytes → Prop)
    (I : State F → Prop) : Prop where
  clean : ∀ text, NulFree text → q text
  part : ∀ text text', q text → (∀ byte ∈ text', byte ∈ text) → q text'
  join : ∀ a b, q a → q b → q (a ++ b)
  raw : q word.raw
  decoded : ∀ i, q (prepared.decoded i)
  home : ∀ name home, env.getpwnam name = some home → q home
  value : ∀ s name value, I s → (s.getVariable name).2.value = some value → q value
  parameter : ∀ s index value, I s → s.parameter index = some value → q value
  keeps : ∀ s s', I s → s.AssignedFrom q s' → I s'

variable {env : ExpandEnv} {word : Token} {prepared : Prepared} {options : ExpandOptions F}
  {q : Bytes → Prop} {I : State F → Prop}

theorem Grows.trans {out out' out'' : Expansion} (h : Grows q out out') (h' : Grows q out' out'') :
    Grows q out out'' := by
  induction h' with
  | refl => exact h
  | append _ quote origin hbytes hkeep ih => exact .append ih quote origin hbytes hkeep
  | newField _ hcontext ih => exact .newField ih hcontext

theorem Grows.scalar {out out' : Expansion} (h : Grows q out out') {text : Bytes} (htext : q text)
    (quote : Quote) (origin : ExpandOrigin) : Grows q out (scalar out' text quote origin) :=
  .append h quote origin htext (by simp)

/-- The texts of an output. -/
def Texts (q : Bytes → Prop) (out : Expansion) : Prop := ∀ field ∈ out.fields, ∀ span ∈ field, q span.text

theorem mem_fields_append {out : Expansion} {bytes : Bytes} {quote : Quote} {origin : ExpandOrigin}
    {keep : Bool} {field : List Span} (h : field ∈ (append out bytes quote origin keep).fields) {span : Span}
    (hspan : span ∈ field) :
    (∃ field ∈ out.fields, span ∈ field) ∨ span.text = bytes ∧ span.quote = quote ∧ span.keepEmpty = keep ∧
      (span.split = true → quote = .none) := by
  have hnew : ∀ fields : List (List Span), fields ≠ [] → ∀ added : Span,
      field ∈ fields.dropLast ++ [fields.getLastD [] ++ [added]] →
      (∃ field ∈ fields, span ∈ field) ∨ span = added := by
    intro fields hne added hmem
    rcases mem_append.mp hmem with hmem | hmem
    · exact .inl ⟨field, dropLast_subset fields hmem, hspan⟩
    · rw [mem_singleton] at hmem
      subst hmem
      rcases mem_append.mp hspan with hold | hadded
      · refine .inl ⟨fields.getLast hne, getLast_mem hne, ?_⟩
        rwa [getLastD_eq_getLast?, getLast?_eq_some_getLast hne, Option.getD_some] at hold
      · exact .inr (mem_singleton.mp hadded)
  unfold Expand.append at h
  dsimp only at h
  have hparts : ∀ added : Span, added.text = bytes ∧ added.quote = quote ∧ added.keepEmpty = keep ∧
      (added.split = true → quote = .none) → span = added →
      span.text = bytes ∧ span.quote = quote ∧ span.keepEmpty = keep ∧ (span.split = true → quote = .none) :=
    fun added hadded heq => heq ▸ hadded
  by_cases hempty : out.fields.isEmpty = true
  · rw [if_pos hempty] at h
    refine (hnew _ (by simp) _ h).imp ?_ (hparts _ ⟨rfl, rfl, rfl, by simp +contextual⟩)
    rintro ⟨field, hmem, hin⟩
    rw [mem_singleton.mp hmem] at hin
    cases hin
  · rw [if_neg hempty] at h
    exact (hnew _ (by simpa using hempty) _ h).imp id (hparts _ ⟨rfl, rfl, rfl, by simp +contextual⟩)

theorem Grows.texts {out out' : Expansion} (h : Grows q out out') (hout : Texts q out) : Texts q out' := by
  induction h with
  | refl => exact hout
  | append _ quote origin hbytes _ ih =>
    intro field hfield span hspan
    rcases mem_fields_append hfield hspan with ⟨old, hold, hin⟩ | ⟨htext, -⟩
    · exact ih old hold span hin
    · rwa [htext]
  | newField _ _ ih =>
    intro field hfield span hspan
    rcases mem_append.mp hfield with hold | hnew
    · exact ih field hold span hspan
    · rw [mem_singleton.mp hnew] at hspan
      cases hspan

/-- Texts of `q` are joined to a text of `q`. -/
theorem flatten_texts (hs : Supplies env word prepared q I) {out : Expansion} (h : Texts q out) :
    q (flatten out) := by
  have hnil : q [] := hs.clean [] (by simp [NulFree])
  have hfield : ∀ field : List Span, (∀ span ∈ field, q span.text) → q (field.flatMap Span.text) := by
    intro field hall
    induction field with
    | nil => exact hnil
    | cons span field ih =>
      exact hs.join _ _ (hall span mem_cons_self) (ih fun s hmem => hall s (mem_cons_of_mem span hmem))
  unfold flatten Texts at *
  generalize out.fields = fields at h
  induction fields with
  | nil => exact hnil
  | cons field fields ih =>
    exact hs.join _ _ (hfield field (h field mem_cons_self))
      (ih fun f hmem => h f (mem_cons_of_mem field hmem))

/-! ### The parts of the walk -/

theorem nulFree_decimal (number : ℤ) : NulFree (Arithmetic.decimal number) := by
  have hdigits : NulFree ((Nat.toDigits 10 number.natAbs).map byteOf) := by
    intro hmem
    obtain ⟨c, hc, hbyte⟩ := mem_map.mp hmem
    have hdigit := Nat.isDigit_of_mem_toDigits (by decide) (by decide) hc
    simp only [Char.isDigit, Bool.and_eq_true, decide_eq_true_eq] at hdigit
    have hlow : 48 ≤ c.toNat := hdigit.1
    have hhigh : c.toNat ≤ 57 := hdigit.2
    have hzero : (byteOf c).toNat = 0 := by
      rw [hbyte]
      rfl
    simp only [byteOf, Nat.toUInt8_eq, UInt8.toNat_ofNat'] at hzero
    omega
  unfold Arithmetic.decimal
  dsimp only
  split
  · intro hmem
    rcases mem_cons.mp hmem with h | h
    · exact absurd h (by decide)
    · exact hdigits h
  · exact hdigits

section

variable (hs : Supplies env word prepared q I)
include hs

/-- A part of the spelling. -/
theorem Supplies.slice (begin stop : ℕ) : q (slice word.raw begin stop) :=
  hs.part _ _ hs.raw fun _ hbyte => mem_of_mem_drop (mem_of_mem_take hbyte)

theorem separator_supplied (h : I s) : q (separator env s) := by
  unfold separator
  split
  · exact hs.clean _ (by decide)
  · exact hs.clean _ (by decide)
  · next value _ hvalue =>
    exact hs.part _ _ (hs.value s _ value h hvalue) fun _ hbyte => mem_of_mem_take hbyte

theorem parameter_supplied (h : I s) (index : ℕ) : q ((s.parameter index).getD []) := by
  cases hvalue : s.parameter index with
  | none => exact hs.clean [] (by simp [NulFree])
  | some value => exact hs.parameter s index value h hvalue

theorem positional_grows (h : I s) (out : Expansion)
    (star : Bool) (quote : Quote) : Grows q out (positional env s out star quote) := by
  have hargument : ∀ text ∈ (List.range s.info.argumentCount).map fun i => (s.parameter (i + 1)).getD [],
      q text := by
    intro text htext
    obtain ⟨i, -, rfl⟩ := List.mem_map.mp htext
    exact parameter_supplied hs h (i + 1)
  unfold positional
  dsimp only
  generalize (List.range s.info.argumentCount).map (fun i => (s.parameter (i + 1)).getD []) = texts at hargument
  have hzip : ∀ p ∈ texts.zipIdx, q p.1 := fun p hp => hargument p.1 (List.fst_mem_of_mem_zipIdx hp)
  split
  · -- one field, with separators between the arguments
    have hseparator := separator_supplied hs h
    have hstart : Grows q out (scalar out [] quote .parameter) :=
      Grows.scalar .refl (hs.clean [] (by simp [NulFree])) quote .parameter
    generalize scalar out [] quote .parameter = out₁ at hstart
    generalize texts.zipIdx = pairs at hzip
    induction pairs generalizing out₁ with
    | nil => exact hstart
    | cons p pairs ih =>
      rw [List.foldl_cons]
      have htext := hzip p List.mem_cons_self
      obtain ⟨text, i⟩ := p
      refine ih _ ?_ (fun p hp => hzip p (List.mem_cons_of_mem _ hp))
      dsimp only
      split
      · exact hstart.scalar htext quote .parameter
      · exact (Grows.append hstart quote .parameter hseparator (by simp)).scalar htext quote .parameter
  · -- a field for each argument
    next hjoin =>
    have hcontext : out.context = .argument := by
      rw [Bool.or_eq_true, not_or] at hjoin
      simpa using hjoin.1
    have hkept : ∀ (out₁ : Expansion) text, (scalar out₁ text quote .parameter).context = out₁.context :=
      fun _ _ => rfl
    have hstart : Grows q out out := .refl
    suffices hall : ∀ out₁ : Expansion, out₁.context = .argument → Grows q out out₁ →
        Grows q out (texts.zipIdx.foldl (fun out p =>
          scalar (if p.2 = 0 then out else newField out) p.1 quote .parameter) out₁) from
      hall out hcontext hstart
    generalize texts.zipIdx = pairs at hzip
    intro out₁ hcontext₁ hgrows
    induction pairs generalizing out₁ with
    | nil => exact hgrows
    | cons p pairs ih =>
      rw [List.foldl_cons]
      have htext := hzip p List.mem_cons_self
      obtain ⟨text, i⟩ := p
      refine ih (fun p hp => hzip p (List.mem_cons_of_mem _ hp)) _ ?_ ?_
      · dsimp only
        rw [hkept]
        split
        · exact hcontext₁
        · exact hcontext₁
      · dsimp only
        split
        · exact hgrows.scalar htext quote .parameter
        · exact (Grows.newField hgrows hcontext₁).scalar htext quote .parameter

theorem flushText_grows (f : Fragment) (origin : ExpandOrigin)
    (run p : ℕ) (out : Expansion) : Grows q out (flushText word f origin run p out) := by
  unfold flushText
  split
  · exact .append .refl f.quote origin (hs.slice run p) (by simp)
  · exact .refl

theorem tildePrefix_grows (h : I s)
    (parent : Option ℕ) (tilde : Tilde) (begin stop : ℕ) (out : Expansion) :
    Grows q out (tildePrefix env word prepared s parent tilde begin stop out).1 := by
  unfold tildePrefix
  split
  · exact .refl
  · next name pos _ =>
    dsimp only
    split
    · exact .refl
    · next home hhome =>
      have hq : q home := by
        split at hhome
        · exact hs.value s _ home h hhome
        · exact hs.home name home hhome
      refine .append .refl _ _ ?_ (by simp)
      split
      · exact hs.part _ _ hq fun _ hbyte => dropLast_subset home hbyte
      · exact hq

theorem textLoop_grows (h : I s)
    (parent : Option ℕ) (tilde : Tilde) (f : Fragment) (origin : ExpandOrigin) (stop rangeStop p run : ℕ)
    (tildeOk : Bool) (out : Expansion) :
    Grows q out (textLoop env word prepared s parent tilde f origin stop rangeStop p run tildeOk out).1 := by
  fun_induction textLoop env word prepared s parent tilde f origin stop rangeStop p run tildeOk out with
  | case1 p run tildeOk out _ _ out₁ after heq _ ih =>
    have hprefix := tildePrefix_grows hs h parent tilde p rangeStop (flushText word f origin run p out)
    rw [heq] at hprefix
    exact ((flushText_grows hs f origin run p out).trans hprefix).trans ih
  | case2 p run tildeOk out _ _ out₁ after heq _ _ ih =>
    have hprefix := tildePrefix_grows hs h parent tilde p rangeStop (flushText word f origin run p out)
    rw [heq] at hprefix
    exact ((flushText_grows hs f origin run p out).trans hprefix).trans ih
  | case3 p run tildeOk out _ _ _ _ ih => exact ih
  | case4 p run tildeOk out => exact .refl

/-- The value of a parameter is supplied. -/
theorem parameterValue_supplied (h : I s) {name : Bytes}
    {value : Option Bytes} (hvalue : parameterValue s name = .ok value) : q (value.getD []) := by
  have hnil : q [] := hs.clean [] (by simp [NulFree])
  have hdecimal : ∀ number : ℤ, q (Arithmetic.decimal number) := fun number => hs.clean _ (nulFree_decimal number)
  unfold parameterValue at hvalue
  split at hvalue
  · cases hvalue
  · next first rest =>
    split at hvalue
    · split at hvalue
      · next view hview =>
        cases hvalue
        cases htext : view.value with
        | none => exact hnil
        | some text => exact hs.value s _ text h (by rw [hview]; exact htext)
      · cases hvalue
    · split at hvalue
      · split at hvalue
        · cases hvalue
          exact parameter_supplied hs h _
        · cases hvalue
      · split at hvalue
        · cases hvalue
          exact hdecimal s.info.argumentCount
        · split at hvalue
          · cases hvalue
            exact hdecimal s.info.lastStatus
          · split at hvalue
            · cases hvalue
              exact hdecimal s.info.shellPid
            · split at hvalue
              · cases hvalue
                split
                · exact hnil
                · exact hdecimal s.info.backgroundPid
              · split at hvalue
                · cases hvalue
                  refine hs.clean _ ?_
                  intro hmem
                  obtain ⟨o, ho, hbyte⟩ := mem_map.mp hmem
                  exact absurd hbyte
                    ((by decide : ∀ o ∈ optionLetters, byteOf o.2 ≠ 0) o (mem_of_mem_filter ho))
                · cases hvalue

theorem removePattern_supplied {value : Bytes} (h : q value)
    (pattern : Bytes) (suffix longest : Bool) : q (removePattern env value pattern suffix longest) := by
  unfold removePattern
  dsimp only
  split
  · exact h
  · split
    · exact hs.part _ _ h fun _ hbyte => mem_of_mem_take hbyte
    · exact hs.part _ _ h fun _ hbyte => mem_of_mem_drop hbyte

end

/-! ### The walk -/

/-- The call assigns and appends texts of `q` only. -/
structure Reply.After (q : Bytes → Prop) (s : State F) (out : Expansion) (r : Reply F) : Prop where
  state : s.AssignedFrom q r.work.state
  out : r.result = .ok → Grows q out r.out

theorem Reply.After.reported {out : Expansion} {r : Reply F} (h : r.After q s out) (word : Token)
    (index : ℕ) (message : String) : (Reply.reported word r index message).After q s out := by
  refine ⟨?_, ?_⟩
  · rw [state_reported]
    exact h.state
  · intro hok
    unfold Reply.reported at hok ⊢
    split
    · next hr => exact h.out hr
    · next hr =>
      rw [if_neg hr] at hok
      exact absurd hok hr

/-- The nested calls assign and append texts of `q` only. -/
def Assigning (q : Bytes → Prop) (I : State F → Prop) (ranger : Ranger F) : Prop :=
  ∀ parent begin stop origin tilde (work : Work F) out, I work.state →
    (ranger parent begin stop origin tilde work out).After q work.state out

variable {ranger : Ranger F}

variable {work : Work F}

theorem parameterRemove_after (hs : Supplies env word prepared q I) (h : Assigning q I ranger) (index : ℕ)
    (f : Fragment) (header : Header) (op : UInt8) {value : Bytes} (hvalue : q value)
    (hI : I work.state) (out : Expansion) :
    (parameterRemove env ranger index f header op value work out).After q work.state out := by
  have hoperand := h (some index) header.operand header.stop .parameter .word work { context := .pattern } hI
  have hremoved : ∀ pattern, Grows q out (scalar out
      (removePattern env value pattern (op == byteOf '%') header.longest) f.quote .parameter) :=
    fun pattern => Grows.scalar .refl (removePattern_supplied hs hvalue pattern _ _) f.quote .parameter
  unfold parameterRemove
  dsimp only
  split
  · next hfailed => exact ⟨hoperand.state, fun hok => absurd hok hfailed⟩
  · split
    · next hfailed => exact ⟨hoperand.state, fun hok => absurd hok hfailed⟩
    · split
      · exact ⟨hoperand.state, fun _ => hremoved _⟩
      · exact ⟨hoperand.state, fun _ => hremoved _⟩
      · exact ⟨hoperand.state, fun hok => by cases hok⟩

theorem assign_assigned (s : State F) (name : Bytes) {value : Bytes} (hvalue : q value) :
    s.AssignedFrom q (assign s name value).2 := by
  unfold assign
  have hset := State.AssignedFrom.set (.refl s) name hvalue
  split
  · next s₁ heq =>
    rw [heq] at hset
    split
    · have hmark := State.AssignedFrom.mark hset name
      split
      all_goals
        next hexport =>
        rw [hexport] at hmark
        exact hmark
    · exact hset
  all_goals
    next heq =>
    rw [heq] at hset
    exact hset

section

variable (hs : Supplies env word prepared q I)
include hs

theorem parameterDefault_after (h : Assigning q I ranger) (index : ℕ)
    (f : Fragment) (header : Header) (op : UInt8) {value : Option Bytes} (hvalue : q (value.getD []))
    (hI : I work.state) (out : Expansion) :
    (parameterDefault word ranger index f header op value work out).After q work.state out := by
  have hnil : q [] := hs.clean [] (by simp [NulFree])
  have hscalar : ∀ {text}, q text → Grows q out (scalar out text f.quote .parameter) :=
    fun htext => Grows.scalar .refl htext f.quote .parameter
  unfold parameterDefault
  dsimp only
  generalize (if op == byteOf '+' then !(value.isNone || header.colon && value == some [])
    else value.isNone || header.colon && value == some []) = useWord
  cases useWord with
  | false =>
    refine ⟨.refl _, fun _ => hscalar ?_⟩
    split
    · exact hnil
    · exact hvalue
  | true =>
    rw [if_neg (by simp)]
    split
    · split
      · exact ⟨.refl _, fun _ => hscalar hnil⟩
      · exact h _ _ _ _ _ _ _ hI
    · have hoperand := h (some index) header.operand header.stop .parameter .word work
        { context := .assignment } hI
      split
      · next hfailed => exact ⟨hoperand.state, fun hok => absurd hok hfailed⟩
      · next hok =>
        have htext := flatten_texts hs ((hoperand.out (not_not.mp hok)).texts (by simp [Texts]))
        split
        · exact ⟨hoperand.state, fun hok => by cases hok⟩
        · split
          · exact ⟨hoperand.state.trans (assign_assigned _ _ htext), fun _ => hscalar htext⟩
          · next hfailed =>
            exact ⟨hoperand.state.trans (assign_assigned _ _ htext), fun hok => absurd hok hfailed⟩

theorem parameterBody_after (h : Assigning q I ranger) (index : ℕ)
    (f : Fragment) (header : Header) (hI : I work.state) (out : Expansion) :
    (parameterBody env word ranger index f header work out).After q work.state out := by
  unfold parameterBody
  split
  · split
    · exact ⟨.refl _, fun _ => .refl⟩
    · exact ⟨.refl _, fun _ => positional_grows hs hI out _ _⟩
  · split
    · exact ⟨.refl _, fun _ => .refl⟩
    · next value hread =>
      have hvalue := parameterValue_supplied hs hI hread
      dsimp only
      split
      · exact ⟨.refl _, fun _ => .refl⟩
      · split
        · exact ⟨.refl _, fun _ => Grows.scalar .refl (hs.clean _ (nulFree_decimal _)) _ _⟩
        · split
          · exact ⟨.refl _, fun _ => Grows.scalar .refl hvalue _ _⟩
          · split
            · exact parameterRemove_after hs h index f header _ hvalue hI out
            · exact parameterDefault_after hs h index f header _ hvalue hI out

theorem parameter_after (h : Assigning q I ranger) (index : ℕ)
    (f : Fragment) (hI : I work.state) (out : Expansion) :
    (parameter env word ranger index f work out).After q work.state out := by
  unfold parameter
  dsimp only
  refine Reply.After.reported ?_ word index _
  split
  · exact ⟨.refl _, fun _ => .refl⟩
  · exact parameterBody_after hs h index f _ hI out

theorem arithmetic_after (h : Assigning q I ranger) (index : ℕ)
    (f : Fragment) (hI : I work.state) (out : Expansion) :
    (arithmetic word ranger index f work out).After q work.state out := by
  unfold arithmetic
  split
  · exact ⟨.refl _, fun _ => .refl⟩
  · next stop _ =>
    dsimp only
    refine Reply.After.reported ?_ word index _
    generalize hr : ranger (some index) _ stop .literal .off work { context := .assignment } = r
    have hoperand : work.state.AssignedFrom q r.work.state := by
      rw [← hr]
      exact (h _ _ _ _ _ _ _ hI).state
    split
    · next hfailed => exact ⟨hoperand, fun hok => absurd hok hfailed⟩
    · have hvalue : r.work.state.AssignedFrom q (Arithmetic.arithEval r.work.state (flatten r.out)).state := by
        refine (Arithmetic.arithEval_assignedFrom _ _).mono ?_
        rintro text ⟨number, rfl⟩
        exact hs.clean _ (nulFree_decimal number)
      split
      · exact ⟨hoperand.trans hvalue, fun _ => Grows.scalar .refl (hs.clean _ (nulFree_decimal _)) _ _⟩
      · exact ⟨hoperand.trans hvalue, fun hok => by cases hok⟩
      · exact ⟨hoperand.trans hvalue, fun _ => .refl⟩

theorem substitution_after (index : ℕ) (f : Fragment) (work : Work F)
    (out : Expansion) : (substitution word options index f work out).After q work.state out := by
  unfold substitution
  split
  · exact ⟨.refl _, fun _ => .refl⟩
  · dsimp only
    split
    · exact ⟨.refl _, fun _ => .refl⟩
    · split
      · exact ⟨.refl _, fun _ => .refl⟩
      · next hnul =>
        refine ⟨.refl _, fun _ => .append .refl f.quote .substitution (hs.clean _ ?_) (by simp)⟩
        simpa [NulFree] using hnul

end

theorem wholeFragment_after (hs : Supplies env word prepared q I) (h : Assigning q I ranger) (index : ℕ)
    (f : Fragment) (origin : ExpandOrigin) {work : Work F} (hI : I work.state) (out : Expansion) :
    (wholeFragment env word prepared options ranger index f origin work out).After q work.state out := by
  unfold wholeFragment
  split
  · unfold quotedRegion
    split
    · exact ⟨.refl _, fun _ => Grows.scalar .refl (hs.decoded index) _ _⟩
    · dsimp only
      split
      · exact h _ _ _ _ _ _ _ hI
      · exact ⟨.refl _, fun _ => Grows.scalar .refl (hs.clean [] (by simp [NulFree])) _ _⟩
  · exact ⟨.refl _, fun _ => .append .refl _ _ (hs.slice _ _) (by simp)⟩
  · exact parameter_after hs h index f hI out
  · exact arithmetic_after hs h index f hI out
  · exact substitution_after hs index f work out
  · exact substitution_after hs index f work out
  · exact ⟨.refl _, fun _ => .refl⟩
  · exact ⟨.refl _, fun _ => .refl⟩

theorem rangeLoop_after (hs : Supplies env word prepared q I) (h : Assigning q I ranger) (parent : Option ℕ)
    (stop : ℕ) (origin : ExpandOrigin) (tilde : Tilde) (indices : List ℕ) (cursor : ℕ) (tildeOk : Bool)
    (hI : I work.state) (out : Expansion) :
    (rangeLoop env word prepared options ranger parent stop origin tilde indices cursor tildeOk work
      out).After q work.state out := by
  induction indices generalizing cursor tildeOk work out with
  | nil => exact ⟨.refl _, fun _ => .refl⟩
  | cons i rest ih =>
    unfold rangeLoop
    split
    · exact ⟨.refl _, fun _ => .refl⟩
    · next f _ =>
      split
      · exact ih cursor tildeOk hI out
      · dsimp only
        split
        · -- the text of the fragment, and what follows
          have htext := textLoop_grows hs hI parent tilde f origin (min f.stop stop) stop (max cursor f.begin)
            (max cursor f.begin) tildeOk out
          generalize textLoop env word prepared work.state parent tilde f origin (min f.stop stop) stop
            (max cursor f.begin) (max cursor f.begin) tildeOk out = r at htext
          obtain ⟨out₁, p, run, tildeOk₁⟩ := r
          dsimp only at htext ⊢
          have hflush := htext.trans (flushText_grows hs f origin run (min f.stop stop) out₁)
          have hrest := ih (max p (min f.stop stop)) tildeOk₁ hI
            (flushText word f origin run (min f.stop stop) out₁)
          exact ⟨hrest.state, fun hok => hflush.trans (hrest.out hok)⟩
        · exact ih _ _ hI _
        · split
          · exact ⟨.refl _, fun _ => .refl⟩
          · have hwhole := @wholeFragment_after F env word prepared options q I ranger hs h i f origin work hI out
            unfold Reply.andThen
            split
            · next hok =>
              have hrest := ih (min f.stop stop) false (hs.keeps _ _ hI hwhole.state)
                (wholeFragment env word prepared options ranger i f origin work out).out
              exact ⟨hwhole.state.trans hrest.state, fun hdone => (hwhole.out hok).trans (hrest.out hdone)⟩
            · exact hwhole

/-- **Nested ranges assign and append texts of `q` only**, however deep they go. -/
theorem range_after (hs : Supplies env word prepared q I) (stack : ℕ) :
    Assigning q I (range env word prepared options stack) := by
  induction stack with
  | zero =>
    intro parent begin stop origin tilde work out _
    exact ⟨.refl _, fun _ => .refl⟩
  | succ stack ih =>
    intro parent begin stop origin tilde work out hI
    exact rangeLoop_after hs ih parent stop origin tilde _ begin _ hI out

/-- Any texts. -/
theorem supplies_any (env : ExpandEnv) (word : Token) (prepared : Prepared) :
    Supplies env word prepared (fun _ => True) (fun _ : State F => True) :=
  ⟨fun _ _ => trivial, fun _ _ _ _ => trivial, fun _ _ _ _ => trivial, trivial, fun _ => trivial,
    fun _ _ _ => trivial, fun _ _ _ _ _ => trivial, fun _ _ _ _ _ => trivial, fun _ _ _ _ => trivial⟩

end Expand

/-- **The expansion of a word only assigns.** -/
theorem expandWord_assigned (env : ExpandEnv) (stack : ℕ) (s : State F) (word : Token)
    (options : ExpandOptions F) : s.Assigned (expandWord env stack s word options).state := by
  unfold expandWord
  split
  · exact .refl s
  · exact .refl s
  · split
    · exact .refl s
    · next checkpoint hsave =>
      dsimp only
      split
      · exact (range_after (supplies_any env word _) stack _ _ _ _ _ { state := s } _ trivial).state.assigned
      · exact .copy (.refl s) hsave

theorem prepareFields_assigned (env : ExpandEnv) (stack : ℕ) (substitute : Substitute F) (s : State F)
    (token : Token) (offset : ℕ) (mode : ExpandContext) :
    s.Assigned (prepareFields env stack substitute s token offset mode).2 := by
  unfold prepareFields
  split
  · exact .refl s
  · dsimp only
    split
    · exact .refl s
    · next checkpoint hsave =>
      generalize (if offset = 0 then token else cutWord token offset) = word
      have hword := expandWord_assigned env stack s word { context := mode, substitute := some substitute }
      split
      · split
        · exact hword
        · exact .copy (.refl s) hsave
      · exact .copy (.refl s) hsave

theorem prepareScalar_assigned (env : ExpandEnv) (stack : ℕ) (substitute : Substitute F) (s : State F)
    (token : Token) (offset : ℕ) (mode : ExpandContext) :
    s.Assigned (prepareScalar env stack substitute s token offset mode).2 := by
  have hfields := prepareFields_assigned env stack substitute s token offset mode
  unfold prepareScalar
  split
  all_goals
    next heq =>
    rw [heq] at hfields
    exact hfields

end CShell
