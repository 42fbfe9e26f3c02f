import CShell.Lib.Aligned
import CShell.Redirect.Saves

/-!
# Undoing redirections

A redirection saves its targets, is applied, and is undone.  In between others may be
applied and undone, and each may move the backups of the live ones.  What the user sees
of the descriptor table, all but the private backups, is then as before, unless a backup
was moved to a number that is a target restored no later.

## Main definitions

* `Process.visible p` — the table without private backups.
* `Process.Coherent p` — backups are distinct and open.
* `Process.Sheltered p` — no backup sits at a target that is restored no later.
* `Process.MovesClear p items reserved` — neither does one that a new list moves.
* `Nest` — properly nested redirections.

## Main results

* `Process.applyReserved_cases` — what becomes of a redirection.
* `Applied.restore` — undoing one, after anything that left the table as it was.
* `redirections_undone` — **a failed redirection changes nothing, and an applied one is
  undone exactly after any nested ones that move backups clear of targets.**
* `redirections_lost` — a backup that is moved to its own target is lost.
-/

namespace CShell

namespace Redirect

open List

variable {W D : Type} {limit : ℕ}

/-- The entries of several saves, in the order in which they are restored. -/
def flat (saves : List Save) : List SavedDescriptor := saves.flatMap Save.entries

@[simp] theorem flat_nil : flat [] = [] := rfl

@[simp] theorem flat_cons (s : Save) (saves : List Save) : flat (s :: saves) = s.entries ++ flat saves := rfl

namespace Process

/-- All live entries. -/
def entries (p : Process W D limit) : List SavedDescriptor := flat p.saves

/-- The descriptors that private backups hold. -/
def backups (p : Process W D limit) : List ℕ := Redirect.backups p.entries

/-- The descriptor table as the user sees it: everything but private backups. -/
def visible (p : Process W D limit) : Slots limit (Slot D) := p.kernel.table.hide p.backups

/-- Private backups are distinct and open, tokens are distinct, and a save has each
target once. -/
structure Coherent (p : Process W D limit) : Prop where
  nodup : p.backups.Nodup
  held : Held p.kernel.table p.entries
  tokens : (p.saves.map Save.token).Nodup
  tokens_lt : ∀ save ∈ p.saves, save.token < p.nextToken
  targets_nodup : ∀ save ∈ p.saves, (targets save.entries).Nodup
  targets_lt : ∀ e ∈ p.entries, e.backup ≠ none → e.target < limit

/-- No backup sits at a target that is restored no later than it is used. -/
def Sheltered (p : Process W D limit) : Prop := sheltered [] p.entries = true

instance (p : Process W D limit) : Decidable p.Sheltered :=
  inferInstanceAs (Decidable (_ = true))

/-- The numbers that a new list moves live backups to are no such targets either.  The
backups that are operands of the list take the lowest numbers from 3 on that are free and
neither operands nor reserved; a list that is not valid moves nothing. -/
def MovesClear (p : Process W D limit) (items : List Item) (reserved : List ℕ) : Prop :=
  validate items = none →
    clearOfTargets items (spares items reserved p.kernel.table) [] p.entries = true

instance (p : Process W D limit) (items : List Item) (reserved : List ℕ) :
    Decidable (p.MovesClear items reserved) := inferInstanceAs (Decidable (_ → _))

end Process

/-- A save after its backups were, perhaps, moved. -/
structure CarriedSave (t t' : Slots limit (Slot D)) (s s' : Save) : Prop where
  token : s'.token = s.token
  entries : List.Forall₂ (Carried t t') s.entries s'.entries

/-- The user sees the same table, and the live saves hold what they held. -/
structure Unchanged (p p' : Process W D limit) : Prop where
  visible : p'.visible = p.visible
  carried : List.Forall₂ (CarriedSave p.kernel.table p'.kernel.table) p.saves p'.saves
  coherent : p'.Coherent

variable {p : Process W D limit} {t t' : Slots limit (Slot D)} {items : List Item}
  {outer : List Save} {own : List SavedDescriptor} {token : ℕ}

theorem Unchanged.refl (h : p.Coherent) : Unchanged p p where
  visible := rfl
  carried := forall₂_same.mpr fun _ _ =>
    ⟨rfl, forall₂_same.mpr fun _ _ => Carried.of_eq fun _ _ => rfl⟩
  coherent := h

theorem CarriedSave.trans {t₁ t₂ t₃ : Slots limit (Slot D)} {s₁ s₂ s₃ : Save}
    (h : CarriedSave t₁ t₂ s₁ s₂) (h' : CarriedSave t₂ t₃ s₂ s₃) : CarriedSave t₁ t₃ s₁ s₃ where
  token := h'.token.trans h.token
  entries := Aligned.trans (fun _ _ _ h h' => h.trans h') h.entries h'.entries

theorem Unchanged.trans {p₁ p₂ p₃ : Process W D limit} (h : Unchanged p₁ p₂)
    (h' : Unchanged p₂ p₃) : Unchanged p₁ p₃ where
  visible := h'.visible.trans h.visible
  carried := Aligned.trans (fun _ _ _ h h' => h.trans h') h.carried h'.carried
  coherent := h'.coherent

/-! ### Saves as one list of entries -/

theorem length_relocateEntries (items : List Item) (reserved : List ℕ) (es : List SavedDescriptor)
    (k : Kernel W D limit) : (relocateEntries items reserved es k).2.1.length = es.length := by
  induction es generalizing k with
  | nil => rfl
  | cons e es ih =>
    simp only [relocateEntries]
    split
    · rfl
    · simp [ih]

theorem relocateEntries_append (items : List Item) (reserved : List ℕ)
    (es fs : List SavedDescriptor) (k : Kernel W D limit) :
    relocateEntries items reserved (es ++ fs) k
      = match relocateEntries items reserved es k with
        | (some err, es', k') => (some err, es' ++ fs, k')
        | (none, es', k') =>
          let r := relocateEntries items reserved fs k'
          (r.1, es' ++ r.2.1, r.2.2) := by
  induction es generalizing k with
  | nil => rfl
  | cons e es ih =>
    simp only [cons_append, relocateEntries]
    cases hone : relocateEntry items reserved e k with
    | mk result k' =>
      cases result with
      | error err => rfl
      | ok e' =>
        dsimp only
        rw [ih k']
        cases hrun : relocateEntries items reserved es k' with
        | mk result rest =>
          cases result with
          | some err => rfl
          | none => rfl

/-- The outer saves are gone through as one list of entries. -/
theorem relocateSaves_eq (items : List Item) (reserved : List ℕ) (saves : List Save)
    (k : Kernel W D limit) :
    ∃ saves', relocateSaves items reserved saves k
        = ((relocateEntries items reserved (flat saves) k).1, saves',
           (relocateEntries items reserved (flat saves) k).2.2) ∧
      flat saves' = (relocateEntries items reserved (flat saves) k).2.1 ∧
      List.Forall₂ (fun s s' => s'.token = s.token ∧ s'.entries.length = s.entries.length)
        saves saves' := by
  induction saves generalizing k with
  | nil => exact ⟨[], rfl, rfl, .nil⟩
  | cons s saves ih =>
    have hlen := length_relocateEntries items reserved s.entries k
    simp only [relocateSaves, flat_cons, relocateEntries_append]
    cases hrun : relocateEntries items reserved s.entries k with
    | mk result rest =>
      obtain ⟨es', k'⟩ := rest
      rw [hrun] at hlen
      cases result with
      | some err =>
        refine ⟨{ s with entries := es' } :: saves, rfl, rfl, .cons ⟨rfl, hlen⟩ ?_⟩
        exact forall₂_same.mpr fun _ _ => ⟨rfl, rfl⟩
      | none =>
        obtain ⟨saves', hsaves, hflat, hforall⟩ := ih k'
        refine ⟨{ s with entries := es' } :: saves', ?_, ?_, .cons ⟨rfl, hlen⟩ hforall⟩
        · simp only [hsaves]
        · simp only [flat_cons, hflat]

/-- Entries carried one by one are carried save by save. -/
theorem carriedSaves_of_flat {saves saves' : List Save}
    (hshape : List.Forall₂ (fun s s' => s'.token = s.token ∧ s'.entries.length = s.entries.length)
      saves saves')
    (h : List.Forall₂ (Carried t t') (flat saves) (flat saves')) :
    List.Forall₂ (CarriedSave t t') saves saves' := by
  induction hshape with
  | nil => exact .nil
  | cons hs _ ih =>
    obtain ⟨h₁, h₂⟩ := Aligned.split hs.2 h
    exact .cons ⟨hs.1, h₁⟩ (ih h₂)

/-- Saves carried one by one have their entries carried. -/
theorem flat_of_carriedSaves {saves saves' : List Save}
    (h : List.Forall₂ (CarriedSave t t') saves saves') :
    List.Forall₂ (Carried t t') (flat saves) (flat saves') := by
  induction h with
  | nil => exact .nil
  | cons hs _ ih => exact rel_append hs.entries ih

theorem tokens_of_carried {saves saves' : List Save}
    (h : List.Forall₂ (CarriedSave t t') saves saves') :
    saves'.map Save.token = saves.map Save.token := by
  induction h with
  | nil => rfl
  | cons hs _ ih => simp [hs.token, ih]

/-- The facts about targets and tokens do not depend on where backups are. -/
theorem coherent_of_carried {p p' : Process W D limit} (h : p.Coherent)
    (hcarried : List.Forall₂ (CarriedSave p.kernel.table p'.kernel.table) p.saves p'.saves)
    (hnodup : p'.backups.Nodup) (hnext : p.nextToken ≤ p'.nextToken) : p'.Coherent := by
  have hflat := flat_of_carriedSaves hcarried
  have htokens := tokens_of_carried hcarried
  refine ⟨hnodup, held_of_carried hflat h.held, by rw [htokens]; exact h.tokens, ?_, ?_, ?_⟩
  · intro s' hs'
    have hmem : s'.token ∈ p.saves.map Save.token := by
      rw [← htokens]
      exact mem_map_of_mem hs'
    obtain ⟨s, hs, heq⟩ := mem_map.mp hmem
    have hlt := h.tokens_lt s hs
    omega
  · -- save by save, the targets are the same list
    have key : ∀ {saves saves' : List Save},
        List.Forall₂ (CarriedSave p.kernel.table p'.kernel.table) saves saves' →
        (∀ s ∈ saves, (targets s.entries).Nodup) → ∀ s' ∈ saves', (targets s'.entries).Nodup := by
      intro saves saves' hc
      induction hc with
      | nil =>
        intro _ s' hs'
        cases hs'
      | @cons s s₁ saves saves' hs _ ih =>
        intro hall s' hs'
        rcases mem_cons.mp hs' with rfl | hs'
        · rw [targets_of_carried hs.entries]
          exact hall s mem_cons_self
        · exact ih (fun s hs => hall s (mem_cons_of_mem _ hs)) s' hs'
    exact key hcarried h.targets_nodup
  · have key : ∀ {es es' : List SavedDescriptor},
        List.Forall₂ (Carried p.kernel.table p'.kernel.table) es es' →
        (∀ e ∈ es, e.backup ≠ none → e.target < limit) →
        ∀ e' ∈ es', e'.backup ≠ none → e'.target < limit := by
      intro es es' hc
      induction hc with
      | nil =>
        intro _ e' he'
        cases he'
      | @cons e e₁ es es' he _ ih =>
        intro hall e' he' hb
        rcases mem_cons.mp he' with rfl | he'
        · rw [he.target]
          refine hall e mem_cons_self fun hnone => ?_
          have hs := he.slot
          rw [hnone] at hs
          cases hb' : e'.backup with
          | none => exact hb hb'
          | some b => rw [hb'] at hs; exact hs
        · exact ih (fun e he => hall e (mem_cons_of_mem _ he)) e' he' hb
    exact key hflat h.targets_lt

/-! ### Operands -/

theorem validate_eq_none (h : validate items = none) :
    ∀ item ∈ items, 0 ≤ item.fd ∧ (item.kind.isDup = true → 0 ≤ item.sourceFd) := by
  intro item hmem
  obtain ⟨i, hi⟩ := getElem?_of_mem hmem
  have hmem' : (item, i + 1) ∈ items.zipIdx 1 := by
    rw [mk_mem_zipIdx_iff_le_and_getElem?_sub]
    exact ⟨by omega, by simpa using hi⟩
  have hnone : validateItem item (i + 1) = none := findSome?_eq_none_iff.mp h _ hmem'
  unfold validateItem at hnone
  split at hnone
  · cases hnone
  · next hfd =>
    refine ⟨by omega, fun hdup => ?_⟩
    split at hnone
    · cases hnone
    · split at hnone
      · cases hnone
      · next hsource =>
        rw [hdup] at hsource
        simpa using hsource

theorem isOperand_target {item : Item} (hmem : item ∈ items) (h : 0 ≤ item.fd) :
    isOperand item.target items = true := by
  refine any_eq_true.mpr ⟨item, hmem, ?_⟩
  have heq : ((item.target : ℕ) : ℤ) = item.fd := Int.toNat_of_nonneg h
  simp [heq]

/-- Numbers that are no operands are out of every item's way. -/
theorem avoids_of_not_operand {hidden : List ℕ} (hvalid : validate items = none)
    (h : ∀ b ∈ hidden, isOperand b items = false) : ∀ item ∈ items, item.Avoids hidden := by
  intro item hmem
  obtain ⟨hfd, hsource⟩ := validate_eq_none hvalid item hmem
  constructor
  · intro hb
    have hno := h _ hb
    rw [isOperand_target hmem hfd] at hno
    cases hno
  · intro hdup hb
    have hno := h _ hb
    have heq : ((item.source : ℕ) : ℤ) = item.sourceFd := Int.toNat_of_nonneg (hsource hdup)
    have hyes : isOperand item.source items = true :=
      any_eq_true.mpr ⟨item, hmem, by simp [hdup, heq]⟩
    rw [hyes] at hno
    cases hno

/-! ### Applying -/

/-- A redirection that is in force: its save is on top, and remembers what the targets
were. -/
structure Applied (p p' : Process W D limit) (token : ℕ) (own : List SavedDescriptor)
    (outer : List Save) : Prop where
  saves : p'.saves = ⟨token, own⟩ :: outer
  coherent : p'.Coherent
  carried : List.Forall₂ (CarriedSave p.kernel.table p'.kernel.table) p.saves outer
  remembers : ∀ e ∈ own, Remembers p.visible p'.kernel.table e
  frame : ∀ n, n ∉ targets own → p'.visible.get n = p.visible.get n
  clear : ∀ b ∈ p'.backups, b ∉ targets own

theorem backups_of_saves (h : p.saves = ⟨token, own⟩ :: outer) :
    p.backups = backups own ++ backups (flat outer) := by
  unfold Process.backups Process.entries
  rw [h]
  exact backups_append own (flat outer)

theorem entries_of_saves (h : p.saves = ⟨token, own⟩ :: outer) :
    p.entries = own ++ flat outer := by
  unfold Process.entries
  rw [h]
  rfl

/-- Outer backups out of the way and a snapshot taken, any kernel that differs in the
targets only has the redirection in force. -/
theorem applied_of_snapshot {reserved : List ℕ}
    (hp : p.Coherent) {t₁ t₂ : Slots limit (Slot D)}
    (hshape : List.Forall₂ (fun s s' => s'.token = s.token ∧ s'.entries.length = s.entries.length)
      p.saves outer)
    (hrel : Relocated items reserved p.kernel.table t₁ p.entries (flat outer))
    (hclear : ∀ b ∈ backups (flat outer), isOperand b items = false)
    (hsnap : Snapshot items reserved t₁ t₂ own)
    (htargets : ∀ n ∈ targets own, isOperand n items = true) {k : Kernel W D limit}
    (hk : ∀ n, n ∉ targets own → k.table.get n = t₂.get n) :
    Applied p ⟨k, ⟨p.nextToken, own⟩ :: outer, p.nextToken + 1⟩ p.nextToken own outer := by
  -- no backup is a target, since targets are operands
  have hownClear : ∀ b ∈ backups own, b ∉ targets own := by
    intro b hb hmem
    have hop := htargets b hmem
    rw [(hsnap.fresh b hb).2.2] at hop
    cases hop
  have houterClear : ∀ b ∈ backups (flat outer), b ∉ targets own := by
    intro b hb hmem
    have hop := htargets b hmem
    rw [hclear b hb] at hop
    cases hop
  -- an outer backup is open when the snapshot is taken, so no new one takes its number
  have hheld₁ : Held t₁ (flat outer) := held_of_carried hrel.carried hp.held
  have hdisjoint : ∀ b ∈ backups own, b ∉ backups (flat outer) := by
    intro b hb hmem
    obtain ⟨d, hd⟩ := hheld₁ b hmem
    rw [(hsnap.fresh b hb).1] at hd
    cases hd
  have hsame : ∀ b ∈ backups (flat outer), k.table.get b = t₁.get b := by
    intro b hb
    rw [hk b (houterClear b hb), hsnap.untouched b fun hown => hdisjoint b hown hb]
  have hcarried : List.Forall₂ (CarriedSave p.kernel.table k.table) p.saves outer := by
    refine carriedSaves_of_flat hshape ?_
    refine Aligned.trans (fun _ _ _ h h' => h.trans h') hrel.carried
      (forall₂_same.mpr fun e he => Carried.of_eq fun b hb => ?_)
    exact hsame b (mem_backups.mpr ⟨e, he, hb⟩)
  have hvisible : p.visible = t₁.hide (backups (flat outer)) := hrel.hide_eq.symm
  have hremembers : ∀ e ∈ own, Remembers p.visible k.table e := by
    intro e he
    have htarget : e.target ∈ targets own := mem_map_of_mem he
    have hnot : e.target ∉ backups (flat outer) := fun hb => houterClear _ hb htarget
    have hr := hsnap.remembers e he
    unfold Remembers at hr ⊢
    rw [hvisible, Slots.get_hide_of_notMem hnot]
    cases hb : e.backup with
    | none =>
      rw [hb] at hr
      exact hr
    | some b =>
      rw [hb] at hr
      obtain ⟨d, hd, hd'⟩ := hr
      refine ⟨d, hd, ?_⟩
      rw [hk b (hownClear b (mem_backups.mpr ⟨e, he, hb⟩))]
      exact hd'
  have htargets_lt : ∀ e ∈ own, e.backup ≠ none → e.target < limit := by
    intro e he hb
    have hr := hsnap.remembers e he
    unfold Remembers at hr
    cases hb' : e.backup with
    | none => exact absurd hb' hb
    | some b =>
      rw [hb'] at hr
      obtain ⟨d, hd, -⟩ := hr
      exact Slots.lt_of_get hd
  -- the outer part of the process is coherent whatever is on top of it
  have houter : Process.Coherent ⟨k, outer, p.nextToken + 1⟩ :=
    coherent_of_carried hp hcarried hrel.nodup (Nat.le_succ _)
  refine ⟨rfl, ⟨?_, ?_, ?_, ?_, ?_, ?_⟩, hcarried, hremembers, ?_, ?_⟩
  · rw [backups_of_saves rfl, nodup_append]
    refine ⟨hsnap.nodup, hrel.nodup, ?_⟩
    rintro a ha b hb rfl
    exact hdisjoint a ha hb
  · intro b hb
    rw [entries_of_saves rfl, backups_append] at hb
    rcases mem_append.mp hb with hb | hb
    · obtain ⟨d, hd⟩ := hsnap.held b hb
      exact ⟨d, by rw [hk b (hownClear b hb)]; exact hd⟩
    · exact houter.held b hb
  · rw [map_cons, nodup_cons]
    refine ⟨?_, houter.tokens⟩
    intro hmem
    rw [tokens_of_carried hcarried] at hmem
    obtain ⟨s, hs, heq⟩ := mem_map.mp hmem
    have hlt := hp.tokens_lt s hs
    rw [heq] at hlt
    exact lt_irrefl _ hlt
  · intro s hs
    rcases mem_cons.mp hs with rfl | hs
    · exact Nat.lt_succ_self _
    · exact houter.tokens_lt s hs
  · intro s hs
    rcases mem_cons.mp hs with rfl | hs
    · exact hsnap.targets_nodup
    · exact houter.targets_nodup s hs
  · intro e he
    rw [entries_of_saves rfl] at he
    rcases mem_append.mp he with he | he
    · exact htargets_lt e he
    · exact houter.targets_lt e he
  · intro n hn
    unfold Process.visible
    rw [backups_of_saves rfl, Slots.get_hide]
    change _ = p.visible.get n
    rw [hvisible, Slots.get_hide]
    by_cases hn₁ : n ∈ backups own
    · -- a new backup has a number that was free
      rw [if_pos (mem_append_left _ hn₁), (hsnap.fresh n hn₁).1, ite_self]
    · by_cases hn₂ : n ∈ backups (flat outer)
      · rw [if_pos (mem_append_right _ hn₂), if_pos hn₂]
      · have hnot : n ∉ backups own ++ backups (flat outer) := by
          rw [mem_append, not_or]
          exact ⟨hn₁, hn₂⟩
        rw [if_neg hnot, if_neg hn₂, hk n hn, hsnap.untouched n hn₁]
  · intro b hb
    rw [backups_of_saves rfl] at hb
    rcases mem_append.mp hb with hb | hb
    · exact hownClear b hb
    · exact houterClear b hb

/-- The restored targets of the top save are what they were when it was made, and the
rest of the table is left alone. -/
theorem Applied.restore {p p₁ p₂ : Process W D limit}
    (ha : Applied p p₁ token own outer) (hu : Unchanged p₁ p₂)
    (hs : ∀ own₂ outer₂, p₂.saves = ⟨token, own₂⟩ :: outer₂ →
      sheltered [] own₂ = true ∧ ∀ b ∈ backups (flat outer₂), b ∉ targets own₂) :
    ∃ p₃, p₂.restore (some token) = (.ok (), p₃) ∧ Unchanged p p₃ ∧
      p₃.saves = p₂.saves.tail ∧ (p₂.Sheltered → p₃.Sheltered) := by
  -- the save is still on top, with its backups moved at most
  have hcarried₂ := hu.carried
  rw [ha.saves] at hcarried₂
  obtain ⟨s₂, outer₂, hsave, houter, hsaves₂⟩ := forall₂_cons_left_iff.mp hcarried₂
  obtain ⟨token₂, own₂⟩ := s₂
  obtain rfl : token₂ = token := hsave.token
  have hown : List.Forall₂ (Carried p₁.kernel.table p₂.kernel.table) own own₂ := hsave.entries
  obtain ⟨hshelter, houterClear⟩ := hs own₂ outer₂ hsaves₂
  have hp₂ := hu.coherent
  have hbackups₂ := backups_of_saves hsaves₂
  have hentries₂ := entries_of_saves hsaves₂
  have htargets₂ : targets own₂ = targets own := targets_of_carried hown
  have hnodup₂ : (backups own₂ ++ backups (flat outer₂)).Nodup := hbackups₂ ▸ hp₂.nodup
  have hheldOwn : Held p₂.kernel.table own₂ := by
    intro b hb
    refine hp₂.held b ?_
    rw [hentries₂, backups_append]
    exact mem_append_left _ hb
  have hmem₂ : (⟨token₂, own₂⟩ : Save) ∈ p₂.saves := by
    rw [hsaves₂]
    exact mem_cons_self
  obtain ⟨t₃, hrun, hput, hclosed, hsame⟩ := restoreEntries_spec own₂ p₂.kernel []
    (hp₂.targets_nodup _ hmem₂) (nodup_append.mp hnodup₂).1 hheldOwn
    (fun e he => hp₂.targets_lt e (by rw [hentries₂]; exact mem_append_left _ he)) hshelter
  let p₃ : Process W D limit := ⟨{ p₂.kernel with table := t₃ }, outer₂, p₂.nextToken⟩
  have hrestore : p₂.restore (some token₂) = (.ok (), p₃) := by
    unfold Process.restore
    simp only [Option.bind_some, hsaves₂, find?_cons, beq_self_eq_true, eraseP_cons,
      cond_true, hrun, p₃]
  -- what outer backups hold is out of the way of everything restored
  have hkeep : ∀ b ∈ backups (flat outer₂), t₃.get b = p₂.kernel.table.get b := by
    intro b hb
    refine hsame b (houterClear b hb) fun hown => ?_
    exact (nodup_append.mp hnodup₂).2.2 b hown b hb rfl
  have hcarried₃ : List.Forall₂ (CarriedSave p.kernel.table p₃.kernel.table) p.saves outer₂ := by
    have h₁₂ : List.Forall₂ (CarriedSave p.kernel.table p₂.kernel.table) p.saves outer₂ :=
      Aligned.trans (fun _ _ _ h h' => h.trans h') ha.carried houter
    refine Aligned.trans (fun _ _ _ h h' => h.trans h') h₁₂
      (forall₂_same.mpr fun s hs => ⟨rfl, forall₂_same.mpr fun e he =>
        Carried.of_eq fun b hb => ?_⟩)
    exact hkeep b (mem_backups.mpr ⟨e, mem_flatMap.mpr ⟨s, hs, he⟩, hb⟩)
  have hvisible₂ : ∀ n, n ∉ targets own₂ → p₂.visible.get n = p.visible.get n := by
    intro n hn
    rw [hu.visible]
    exact ha.frame n (htargets₂ ▸ hn)
  have hhidden : ∀ n ∈ p₂.backups, n ∉ targets own₂ → p.visible.get n = none := by
    intro n hn hnt
    rw [← hvisible₂ n hnt]
    unfold Process.visible
    rw [Slots.get_hide, if_pos hn]
  have hvisible : p₃.visible = p.visible := by
    ext1
    funext n
    have hget : p₃.visible.get n = if n ∈ backups (flat outer₂) then none else t₃.get n := rfl
    rw [hget]
    by_cases hno : n ∈ backups (flat outer₂)
    · rw [if_pos hno]
      refine (hhidden n ?_ (houterClear n hno)).symm
      rw [hbackups₂]
      exact mem_append_right _ hno
    · rw [if_neg hno]
      by_cases hnt : n ∈ targets own₂
      · -- a target is what its entry remembers
        obtain ⟨e₂, he₂, rfl⟩ := mem_map.mp hnt
        obtain ⟨e, he, hce⟩ := Aligned.exists_left hown he₂
        rw [hput e₂ he₂, hce.target]
        have hr := ha.remembers e he
        have hslot := hce.slot
        unfold restoredSlot
        unfold Remembers at hr
        cases hb : e.backup with
        | none =>
          rw [hb] at hr hslot
          cases hb₂ : e₂.backup with
          | none => exact hr.symm
          | some b₂ =>
            rw [hb₂] at hslot
            exact hslot.elim
        | some b =>
          rw [hb] at hr hslot
          cases hb₂ : e₂.backup with
          | none =>
            rw [hb₂] at hslot
            exact hslot.elim
          | some b₂ =>
            rw [hb₂] at hslot
            obtain ⟨d, hd, hd'⟩ := hr
            have hb₂get : p₂.kernel.table.get b₂ = some ⟨d, true⟩ := hslot.trans hd'
            simp only [Option.bind_some, hb₂get, Option.map_some, hd, hce.flags]
      · by_cases hnb : n ∈ backups own₂
        · rw [hclosed n hnt hnb]
          refine (hhidden n ?_ hnt).symm
          rw [hbackups₂]
          exact mem_append_left _ hnb
        · rw [hsame n hnt hnb, ← hvisible₂ n hnt]
          unfold Process.visible
          rw [hbackups₂, Slots.get_hide, if_neg]
          rw [mem_append, not_or]
          exact ⟨hnb, hno⟩
  have hcoherent : p₃.Coherent := by
    have houterCoherent : Process.Coherent ⟨p₂.kernel, outer₂, p₂.nextToken⟩ := by
      refine ⟨(nodup_append.mp hnodup₂).2.1, ?_, ?_, ?_, ?_, ?_⟩
      · intro b hb
        refine hp₂.held b ?_
        rw [hentries₂, backups_append]
        exact mem_append_right _ hb
      · have htokens := hp₂.tokens
        rw [hsaves₂, map_cons, nodup_cons] at htokens
        exact htokens.2
      · intro s hs
        exact hp₂.tokens_lt s (hsaves₂ ▸ mem_cons_of_mem _ hs)
      · intro s hs
        exact hp₂.targets_nodup s (hsaves₂ ▸ mem_cons_of_mem _ hs)
      · intro e he
        exact hp₂.targets_lt e (by rw [hentries₂]; exact mem_append_right _ he)
    refine coherent_of_carried houterCoherent ?_ houterCoherent.nodup (le_refl _)
    refine forall₂_same.mpr fun s hs => ⟨rfl, forall₂_same.mpr fun e he =>
      Carried.of_eq fun b hb => ?_⟩
    exact hkeep b (mem_backups.mpr ⟨e, mem_flatMap.mpr ⟨s, hs, he⟩, hb⟩)
  refine ⟨p₃, hrestore, ⟨hvisible, hcarried₃, hcoherent⟩, by rw [hsaves₂]; rfl, fun hsh => ?_⟩
  unfold Process.Sheltered at hsh ⊢
  rw [hentries₂, sheltered_append] at hsh
  exact sheltered_mono (by simp) hsh.2

theorem Applied.sheltered {p p' : Process W D limit}
    (ha : Applied p p' token own outer)
    (houter : sheltered [] (flat outer) = true) : p'.Sheltered := by
  have hclear := ha.clear
  rw [backups_of_saves ha.saves] at hclear
  unfold Process.Sheltered
  rw [entries_of_saves ha.saves, sheltered_append]
  constructor
  · refine sheltered_of_notMem fun b hb => ⟨not_mem_nil, ?_⟩
    exact hclear b (mem_append_left _ hb)
  · rw [append_nil]
    have hext : Redirect.sheltered ([] ++ (targets own).reverse) (flat outer) = true :=
      sheltered_extend houter fun b hb hmem =>
        hclear b (mem_append_right _ hb) (mem_reverse.mp hmem)
    simpa using hext

/-- A snapshot in place: the outer backups are out of the way, and the targets saved. -/
structure Prepared (items : List Item) (reserved : List ℕ) (p : Process W D limit)
    (own : List SavedDescriptor) (outer : List Save) (t₁ t₂ : Slots limit (Slot D)) : Prop where
  shape : List.Forall₂ (fun s s' => s'.token = s.token ∧ s'.entries.length = s.entries.length)
    p.saves outer
  relocated : Relocated items reserved p.kernel.table t₁ p.entries (flat outer)
  clear : ∀ b ∈ backups (flat outer), isOperand b items = false
  snapshot : Snapshot items reserved t₁ t₂ own
  targets : ∀ n, n ∈ targets own ↔ ∃ item ∈ items, item.target = n
  sheltered : p.Sheltered → p.MovesClear items reserved → Redirect.sheltered [] (flat outer) = true
  spares : (spares items reserved p.kernel.table).length
    ≤ (spares items reserved t₂).length + items.length + p.backups.length

/-- The two searches for numbers end with the snapshot in place, or with everything as
before because the spare numbers do not suffice. -/
theorem Process.applyReserved_prepare (host : Host W D) (hp : p.Coherent)
    (reserved : List ℕ) (hvalid : validate items = none)
    (hne : items.isEmpty = false) :
    (∃ failure p', p.applyReserved host items reserved = (.error failure, p') ∧ Unchanged p p' ∧
      (p.Sheltered → p.MovesClear items reserved → p'.Sheltered) ∧
      (spares items reserved p.kernel.table).length < items.length + p.backups.length + 1) ∨
    (∃ own outer t₁ t₂, Prepared items reserved p own outer t₁ t₂ ∧
      p.applyReserved host items reserved
        = carryOut host ⟨{ p.kernel with table := t₂ }, ⟨p.nextToken, own⟩ :: outer, p.nextToken + 1⟩
            items p.nextToken) := by
  obtain ⟨outer, hmoved, hflat, hshape⟩ := relocateSaves_eq items reserved p.saves p.kernel
  obtain ⟨result, es', t₁, hrun, hrel, hclear, moved, hmovedLe, hspares₁, hfail⟩ :=
    @relocateEntries_spec _ _ _ items reserved p.entries p.kernel hp.nodup hp.held
  have hrun' : relocateEntries items reserved (flat p.saves) p.kernel
      = (result, es', { p.kernel with table := t₁ }) := hrun
  rw [hrun'] at hmoved hflat
  obtain rfl : flat outer = es' := hflat
  have hlen₁ : (spares items reserved p.kernel.table).length
      ≤ (spares items reserved t₁).length + p.backups.length := by
    have hle : moved ≤ p.backups.length := hmovedLe
    rw [hspares₁, length_drop]
    omega
  have hshelter : p.Sheltered → p.MovesClear items reserved →
      Redirect.sheltered [] (flat outer) = true := by
    intro hs hc
    have hkept := sheltered_relocateEntries p.entries p.kernel [] hp.nodup hp.held hs (hc hvalid)
    rw [hrun] at hkept
    exact hkept
  -- the process with the outer backups moved
  have hout : Unchanged p ⟨{ p.kernel with table := t₁ }, outer, p.nextToken⟩ := by
    have hcarried : List.Forall₂ (CarriedSave p.kernel.table t₁) p.saves outer :=
      carriedSaves_of_flat hshape hrel.carried
    exact ⟨hrel.hide_eq, hcarried, coherent_of_carried hp hcarried hrel.nodup (le_refl _)⟩
  unfold Process.applyReserved
  rw [hvalid]
  dsimp only
  rw [hne, hmoved]
  cases result with
  | some err =>
    left
    refine ⟨_, _, rfl, hout, hshelter, ?_⟩
    rw [hfail (Option.some_ne_none err)] at hlen₁
    simp only [length_nil] at hlen₁
    omega
  | none =>
    have hop : ∀ item ∈ items.zipIdx 1, isOperand item.1.target items = true := by
      intro item hmem
      have hitem : item.1 ∈ items := fst_mem_of_mem_zipIdx hmem
      exact isOperand_target hitem (validate_eq_none hvalid item.1 hitem).1
    rcases @snapshot_spec _ _ _ items reserved t₁ (items.zipIdx 1) hop []
        { p.kernel with table := t₁ } (Snapshot.nil t₁) with
      ⟨err, index, hsnap, hlen⟩ | ⟨own, t₂, hsnap, hspec, htargets, hlen⟩
    · left
      rw [length_zipIdx] at hlen
      dsimp only at hlen ⊢
      rw [hsnap]
      exact ⟨_, _, rfl, hout, hshelter, by omega⟩
    · right
      rw [length_zipIdx] at hlen
      refine ⟨own, outer, t₁, t₂, ⟨hshape, hrel, hclear rfl, hspec, fun n => ?_, hshelter, ?_⟩, ?_⟩
      · rw [htargets n]
        constructor
        · rintro (hn | ⟨item, hitem, rfl⟩)
          · cases hn
          · exact ⟨item.1, fst_mem_of_mem_zipIdx hitem, rfl⟩
        · rintro ⟨item, hitem, rfl⟩
          obtain ⟨i, hi⟩ := getElem?_of_mem hitem
          refine Or.inr ⟨(item, i + 1), ?_, rfl⟩
          rw [mk_mem_zipIdx_iff_le_and_getElem?_sub]
          exact ⟨by omega, by simpa using hi⟩
      · dsimp only at hlen
        omega
      · dsimp only
        rw [hsnap]
        rfl

/-- Whatever was applied over a snapshot, the redirection is in force: only targets
changed. -/
theorem Prepared.applied (host : Host W D) {reserved : List ℕ}
    (hp : p.Coherent) (hvalid : validate items = none)
    {t₁ t₂ : Slots limit (Slot D)}
    (h : Prepared items reserved p own outer t₁ t₂) :
    Applied p ⟨(applyAll host (items.zipIdx 1) { p.kernel with table := t₂ }).2,
      ⟨p.nextToken, own⟩ :: outer, p.nextToken + 1⟩ p.nextToken own outer := by
  refine applied_of_snapshot hp h.shape h.relocated h.clear h.snapshot ?_ ?_
  · intro n hn
    obtain ⟨item, hitem, rfl⟩ := (h.targets n).mp hn
    exact isOperand_target hitem (validate_eq_none hvalid item hitem).1
  · intro n hn
    refine applyAll_frame host _ { p.kernel with table := t₂ } fun item hitem heq => ?_
    exact hn ((h.targets n).mpr ⟨item.1, fst_mem_of_mem_zipIdx hitem, heq.symm⟩)

/-- A redirection that has just been applied can be undone at once. -/
theorem Applied.restore_now {p p₁ : Process W D limit}
    (ha : Applied p p₁ token own outer) :
    ∃ p₃, p₁.restore (some token) = (.ok (), p₃) ∧ Unchanged p p₃ ∧ p₃.saves = outer ∧
      (p₁.Sheltered → p₃.Sheltered) := by
  obtain ⟨p₃, hrestore, hunchanged, hsaves, hkept⟩ := ha.restore (Unchanged.refl ha.coherent) (by
    intro own₂ outer₂ heq
    rw [ha.saves] at heq
    obtain ⟨hhead, rfl⟩ := cons.inj heq
    obtain ⟨-, rfl⟩ := Save.mk.inj hhead
    have hclear := ha.clear
    rw [backups_of_saves ha.saves] at hclear
    exact ⟨sheltered_of_notMem fun b hb =>
        ⟨not_mem_nil, hclear b (mem_append_left _ hb)⟩,
      fun b hb => hclear b (mem_append_right _ hb)⟩)
  exact ⟨p₃, hrestore, hunchanged, by rw [hsaves, ha.saves]; rfl, hkept⟩

/-- **What becomes of a redirection**: it fails and the user sees the same table, or it
is empty, or it is in force. -/
theorem Process.applyReserved_cases (host : Host W D) (hp : p.Coherent)
    (items : List Item) (reserved : List ℕ) :
    (∃ failure p', p.applyReserved host items reserved = (.error failure, p') ∧ Unchanged p p' ∧
      (p.Sheltered → p.MovesClear items reserved → p'.Sheltered)) ∨
    p.applyReserved host items reserved = (.ok none, p) ∨
    (∃ p' own outer, p.applyReserved host items reserved = (.ok (some p.nextToken), p') ∧
      Applied p p' p.nextToken own outer ∧
      (p.Sheltered → p.MovesClear items reserved → p'.Sheltered)) := by
  cases hvalid : validate items with
  | some failure =>
    left
    unfold Process.applyReserved
    rw [hvalid]
    exact ⟨failure, p, rfl, Unchanged.refl hp, fun hs _ => hs⟩
  | none =>
    by_cases hempty : items.isEmpty = true
    · right
      left
      unfold Process.applyReserved
      rw [hvalid]
      dsimp only
      rw [if_pos hempty]
    · rcases applyReserved_prepare host hp reserved hvalid (by simpa using hempty) with
        ⟨failure, p', happly, hout, hshelter, -⟩ | ⟨own, outer, t₁, t₂, hprep, happly⟩
      · left
        exact ⟨failure, p', happly, hout, hshelter⟩
      · have ha := hprep.applied host hp hvalid
        rw [happly]
        unfold carryOut
        dsimp only
        cases hall : applyAll host (items.zipIdx 1) { p.kernel with table := t₂ } with
        | mk result k =>
          rw [hall] at ha
          cases result with
          | ok done =>
            right
            right
            exact ⟨_, own, outer, rfl, ha, fun hs hc => ha.sheltered (hprep.sheltered hs hc)⟩
          | error failed =>
            left
            obtain ⟨p₃, hrestore, hunchanged, -, hkept⟩ := ha.restore_now
            dsimp only at hrestore ⊢
            rw [hrestore]
            exact ⟨_, p₃, rfl, hunchanged,
              fun hs hc => hkept (ha.sheltered (hprep.sheltered hs hc))⟩

/-! ### Nested redirections -/

/-- Properly nested redirections: one is applied, others come and go, it is undone. -/
inductive Nest
  | done
  | redirect (items : List Item) (reserved : List ℕ) (inner rest : Nest)
  deriving DecidableEq, Repr, Inhabited

namespace Nest

/-- A redirection that fails has nothing inside it and nothing to undo. -/
def run (host : Host W D) : Nest → Process W D limit → Process W D limit
  | .done, p => p
  | .redirect items reserved inner rest, p =>
    match p.applyReserved host items reserved with
    | (.error _, p) => rest.run host p
    | (.ok token, p) => rest.run host ((inner.run host p).restore token).2

/-- Every redirection on the way moves backups clear of targets. -/
def MovesClear (host : Host W D) : Nest → Process W D limit → Prop
  | .done, _ => True
  | .redirect items reserved inner rest, p =>
    p.MovesClear items reserved ∧
      match p.applyReserved host items reserved with
      | (.error _, p) => rest.MovesClear host p
      | (.ok token, p) =>
        inner.MovesClear host p ∧ rest.MovesClear host ((inner.run host p).restore token).2

/-- The top save of a sheltered process can be undone. -/
theorem shelteredTop (h : p.Sheltered)
    (hsaves : p.saves = ⟨token, own⟩ :: outer) :
    sheltered [] own = true ∧ ∀ b ∈ backups (flat outer), b ∉ targets own := by
  unfold Process.Sheltered at h
  rw [entries_of_saves hsaves, sheltered_append] at h
  refine ⟨h.1, fun b hb hmem => ?_⟩
  exact notMem_of_sheltered h.2 (mem_append_left _ (mem_reverse.mpr hmem)) hb

/-- **Nested redirections that move backups clear of targets leave the table as it
was**, and the live saves what they were. -/
theorem run_unchanged (host : Host W D) (nest : Nest) (hp : p.Coherent)
    (hs : p.Sheltered) (hclear : nest.MovesClear host p) :
    Unchanged p (nest.run host p) ∧ (nest.run host p).Sheltered := by
  induction nest generalizing p with
  | done => exact ⟨Unchanged.refl hp, hs⟩
  | redirect items reserved inner rest ihInner ihRest =>
    obtain ⟨hmoves, hnext⟩ := hclear
    simp only [run]
    rcases Process.applyReserved_cases host hp items reserved with
      ⟨failure, p', happly, hunchanged, hkept⟩ | happly | ⟨p₁, own, outer, happly, ha, hkept⟩
    · -- the redirection fails
      rw [happly] at hnext ⊢
      obtain ⟨hrest, hs'⟩ := ihRest hunchanged.coherent (hkept hs hmoves) hnext
      exact ⟨hunchanged.trans hrest, hs'⟩
    · -- an empty list has nothing to undo
      rw [happly] at hnext ⊢
      obtain ⟨hinner, hrest⟩ := hnext
      obtain ⟨hin, hsin⟩ := ihInner hp hs hinner
      obtain ⟨hout, hs'⟩ := ihRest hin.coherent hsin hrest
      exact ⟨hin.trans hout, hs'⟩
    · -- the redirection is in force, and undone after the inner ones
      rw [happly] at hnext ⊢
      obtain ⟨hinner, hrest⟩ := hnext
      obtain ⟨hin, hsin⟩ := ihInner ha.coherent (hkept hs hmoves) hinner
      obtain ⟨p₃, hrestore, hundone, -, hs₃⟩ := ha.restore hin fun own₂ outer₂ => shelteredTop hsin
      have hafter : ((inner.run host p₁).restore (some p.nextToken)).2 = p₃ := by rw [hrestore]
      dsimp only
      rw [hafter] at hrest ⊢
      obtain ⟨hout, hs'⟩ := ihRest hundone.coherent (hs₃ hsin) hrest
      exact ⟨hundone.trans hout, hs'⟩

end Nest

/-- **Redirections undo exactly.**  A redirection that fails, at whatever point, leaves
the table the user sees as it was.  One that is applied is undone after any properly
nested ones that move backups clear of targets: no restoring call fails, the user sees
the table of before, and the saves further out hold what they held. -/
theorem redirections_undone (host : Host W D) {p : Process W D limit} (hp : p.Coherent)
    (items : List Item) (reserved : List ℕ) :
    (∀ failure p', p.applyReserved host items reserved = (.error failure, p') →
      p'.visible = p.visible) ∧
    (∀ token p₁, p.applyReserved host items reserved = (.ok token, p₁) →
      p.Sheltered → p.MovesClear items reserved → ∀ nest : Nest, nest.MovesClear host p₁ →
      ∃ p₃, (nest.run host p₁).restore token = (.ok (), p₃) ∧ p₃.visible = p.visible ∧
        Unchanged p p₃ ∧ p₃.Sheltered) := by
  rcases Process.applyReserved_cases host hp items reserved with
    ⟨failure, p', happly, hunchanged, -⟩ | happly | ⟨p₁, own, outer, happly, ha, hkept⟩
  · rw [happly]
    constructor
    · intro failure' p'' heq
      cases heq
      exact hunchanged.visible
    · intro token p₁ heq
      cases heq
  · rw [happly]
    constructor
    · intro failure' p'' heq
      cases heq
    · intro token p₁ heq hs _ nest hnest
      cases heq
      obtain ⟨hrun, hs'⟩ := nest.run_unchanged host hp hs hnest
      exact ⟨nest.run host p, rfl, hrun.visible, hrun, hs'⟩
  · rw [happly]
    constructor
    · intro failure' p'' heq
      cases heq
    · intro token p₂ heq hs hmoves nest hnest
      cases heq
      obtain ⟨hin, hsin⟩ := nest.run_unchanged host ha.coherent (hkept hs hmoves) hnest
      obtain ⟨p₃, hrestore, hundone, -, hs₃⟩ := ha.restore hin fun own₂ outer₂ => Nest.shelteredTop hsin
      exact ⟨p₃, hrestore, hundone.visible, hundone, hs₃ hsin⟩

/-! ### A shell with descriptors 0, 1, 2, 4 and 5 -/

/-- A file system in which every file can be opened. -/
def plainHost : Host Unit ℕ where
  access _ := .readWrite
  openFile world _ _ := (.ok 9, world)
  stat world _ := (.ok false, world)
  fstat world _ := (.ok false, world)
  mkstemp world := (.ok (8, []), world)
  unlink world _ := (.ok (), world)
  write world _ text := (.ok text.length, world)
  rewind world _ := (.ok (), world)

/-- Descriptors 0, 1, 2, 4 and 5 are open, and no redirection is in force. -/
def plainProcess : Process Unit ℕ 12 where
  kernel :=
    { table :=
        { get := fun n => if n ∈ [0, 1, 2, 4, 5] then some ⟨n, false⟩ else none
          closed := by
            intro n hn
            have hnot : n ∉ [0, 1, 2, 4, 5] := by simp; omega
            rw [if_neg hnot] }
      world := ()
      bounded := by decide }
  saves := []
  nextToken := 0

theorem coherent_plainProcess : plainProcess.Coherent where
  nodup := nodup_nil
  held := by
    intro b hb
    cases hb
  tokens := nodup_nil
  tokens_lt := by
    intro s hs
    cases hs
  targets_nodup := by
    intro s hs
    cases hs
  targets_lt := by
    intro e he
    cases he

/-- `n>&-`. -/
def closing (n : ℤ) : Item := { kind := .close, fd := n }

/-- `n>&m`. -/
def writingTo (n m : ℤ) : Item := { kind := .dupWrite, fd := n, sourceFd := m }

/-- `5>&-` puts the backup of 5 at 3.  Inside, `3>&1` moves it to the lowest number that
is free, which is 5: undoing the outer redirection then copies 5 to itself, and closes
it as the backup. -/
theorem redirections_lost :
    plainProcess.Coherent ∧ plainProcess.Sheltered ∧
    (plainProcess.apply plainHost [closing 5]).1 = .ok (some 0) ∧
    (((Nest.redirect [writingTo 3 1] [] .done .done).run plainHost
      (plainProcess.apply plainHost [closing 5]).2).restore (some 0)).1 = .ok () ∧
    (((Nest.redirect [writingTo 3 1] [] .done .done).run plainHost
      (plainProcess.apply plainHost [closing 5]).2).restore (some 0)).2.visible ≠
        plainProcess.visible := by
  refine ⟨coherent_plainProcess, by decide, by rfl, by rfl, ?_⟩
  intro heq
  have hfive := congrArg (fun t => t.get 5) heq
  revert hfive
  decide

/-- With 3 reserved the backup of 5 is at 6, and an inner redirection of 6 moves it to 3:
5 comes back. -/
theorem redirections_undone_moved :
    ∃ p₃, ((Nest.redirect [writingTo 6 1] [] .done .done).run plainHost
      (plainProcess.applyReserved plainHost [closing 5] [3]).2).restore (some 0) = (.ok (), p₃) ∧
      p₃.visible = plainProcess.visible ∧ p₃.visible.get 5 = some ⟨5, false⟩ := by
  obtain ⟨p₃, hrestore, hvisible, -, -⟩ :=
    (redirections_undone plainHost coherent_plainProcess [closing 5] [3]).2 (some 0)
      (plainProcess.applyReserved plainHost [closing 5] [3]).2 (by rfl) (by decide) (by decide)
      (Nest.redirect [writingTo 6 1] [] .done .done) ⟨by decide, trivial, trivial⟩
  exact ⟨p₃, hrestore, hvisible, by rw [hvisible]; decide⟩

end Redirect

end CShell
