import CShell.Redirect.Calls
import Mathlib.Data.List.Forall2

/-!
# Saves and their backups

What the three loops over saves do to the descriptor table: moving outer backups out
of the way, taking the snapshot of the targets, and putting the targets back.

## Main definitions

* `backups entries` — the descriptors that private backups hold.
* `Carried t t' e e'` — an entry after its backup was, perhaps, moved.
* `sheltered before entries` — no backup sits at a target that is restored no later.
* `clearOfTargets items free before entries` — the backups that have to move find
  numbers of that kind.

## Main results

* `relocateEntries_spec` — moving backups does not show, and loses none.
* `sheltered_relocateEntries` — moved backups stay sheltered, where the numbers they
  get are clear of targets.
* `snapshot_spec` — the snapshot holds what the targets were, or gives all up.
* `restoreEntries_spec` — sheltered entries put their targets back.
-/

namespace CShell

namespace Redirect

open List

variable {W D : Type} {limit : ℕ}

/-- The descriptors that private backups hold. -/
def backups (entries : List SavedDescriptor) : List ℕ := entries.filterMap SavedDescriptor.backup

/-- The targets of a list of entries. -/
def targets (entries : List SavedDescriptor) : List ℕ := entries.map SavedDescriptor.target

@[simp] theorem backups_nil : backups [] = [] := rfl

@[simp] theorem targets_nil : targets [] = [] := rfl

@[simp] theorem targets_cons (e : SavedDescriptor) (es : List SavedDescriptor) :
    targets (e :: es) = e.target :: targets es := rfl

@[simp] theorem backups_append (es fs : List SavedDescriptor) :
    backups (es ++ fs) = backups es ++ backups fs := filterMap_append

@[simp] theorem targets_append (es fs : List SavedDescriptor) :
    targets (es ++ fs) = targets es ++ targets fs := map_append

variable {e : SavedDescriptor} {es es' entries : List SavedDescriptor}
  {t t' t₀ : Slots limit (Slot D)} {items : List Item} {reserved before : List ℕ}

theorem backups_cons_none (h : e.backup = none) (es : List SavedDescriptor) :
    backups (e :: es) = backups es := filterMap_cons_none h

theorem backups_cons_some {b : ℕ} (h : e.backup = some b)
    (es : List SavedDescriptor) : backups (e :: es) = b :: backups es := filterMap_cons_some h

theorem mem_backups {b : ℕ} :
    b ∈ backups es ↔ ∃ e ∈ es, e.backup = some b := mem_filterMap

/-- Every backup is open, and closed by an `exec`. -/
def Held (t : Slots limit (Slot D)) (entries : List SavedDescriptor) : Prop :=
  ∀ b ∈ backups entries, ∃ d, t.get b = some ⟨d, true⟩

/-- A backup, before and after: none, or one with the same slot. -/
def CarriedSlot (t t' : Slots limit (Slot D)) : Option ℕ → Option ℕ → Prop
  | none, none => True
  | some b, some b' => t'.get b' = t.get b
  | _, _ => False

/-- An entry after its backup was, perhaps, moved. -/
structure Carried (t t' : Slots limit (Slot D)) (e e' : SavedDescriptor) : Prop where
  target : e'.target = e.target
  flags : e'.flags = e.flags
  slot : CarriedSlot t t' e.backup e'.backup

theorem Carried.trans {t₁ t₂ t₃ : Slots limit (Slot D)} {e₁ e₂ e₃ : SavedDescriptor}
    (h : Carried t₁ t₂ e₁ e₂) (h' : Carried t₂ t₃ e₂ e₃) : Carried t₁ t₃ e₁ e₃ := by
  refine ⟨h'.target.trans h.target, h'.flags.trans h.flags, ?_⟩
  have hs := h.slot
  have hs' := h'.slot
  revert hs hs'
  cases e₁.backup <;> cases e₂.backup <;> cases e₃.backup <;> simp only [CarriedSlot] <;>
    intro hs hs' <;> simp_all

/-- An entry whose backup is left alone. -/
theorem Carried.of_eq (h : ∀ b, e.backup = some b → t'.get b = t.get b) : Carried t t' e e := by
  refine ⟨rfl, rfl, ?_⟩
  cases hb : e.backup with
  | none => exact trivial
  | some b => exact h b hb

theorem targets_of_carried (h : List.Forall₂ (Carried t t') es es') : targets es' = targets es := by
  induction h with
  | nil => rfl
  | cons he _ ih => simp [he.target, ih]

theorem held_of_carried
    (h : List.Forall₂ (Carried t t') es es') (hheld : Held t es) : Held t' es' := by
  induction h with
  | nil =>
    intro b hb
    cases hb
  | @cons e e' es es' he _ ih =>
    have hs := he.slot
    cases hb : e.backup with
    | none =>
      cases hb' : e'.backup with
      | none =>
        rw [Held, backups_cons_none hb] at hheld
        rw [Held, backups_cons_none hb']
        exact ih hheld
      | some b' => simp [hb, hb', CarriedSlot] at hs
    | some b =>
      cases hb' : e'.backup with
      | none => simp [hb, hb', CarriedSlot] at hs
      | some b' =>
        simp only [hb, hb', CarriedSlot] at hs
        rw [Held, backups_cons_some hb] at hheld
        rw [Held, backups_cons_some hb']
        intro c hc
        rcases mem_cons.mp hc with rfl | hc
        · rw [hs]
          exact hheld b mem_cons_self
        · exact ih (fun c hc => hheld c (mem_cons_of_mem b hc)) c hc

/-- Only the slots of the backups count. -/
theorem forall₂_carried_of_eq {t₁ t t' : Slots limit (Slot D)}
    (hsame : ∀ b ∈ backups es, t₁.get b = t.get b) (h : List.Forall₂ (Carried t₁ t') es es') :
    List.Forall₂ (Carried t t') es es' := by
  induction h with
  | nil => exact List.Forall₂.nil
  | @cons e e' es es' he _ ih =>
    cases hb : e.backup with
    | none =>
      rw [backups_cons_none hb] at hsame
      refine List.Forall₂.cons ⟨he.target, he.flags, ?_⟩ (ih hsame)
      have hs := he.slot
      rw [hb] at hs ⊢
      cases hb' : e'.backup with
      | none => exact trivial
      | some b' => rw [hb'] at hs; exact hs.elim
    | some b =>
      rw [backups_cons_some hb] at hsame
      refine List.Forall₂.cons ⟨he.target, he.flags, ?_⟩
        (ih fun c hc => hsame c (mem_cons_of_mem b hc))
      have hs := he.slot
      rw [hb] at hs ⊢
      cases hb' : e'.backup with
      | none => rw [hb'] at hs; exact hs.elim
      | some b' =>
        rw [hb'] at hs
        exact hs.trans (hsame b mem_cons_self)

/-! ### Moving backups -/

/-- What moving the backups of `es` does to a table. -/
structure Relocated (items : List Item) (reserved : List ℕ) (t t' : Slots limit (Slot D))
    (es es' : List SavedDescriptor) : Prop where
  carried : List.Forall₂ (Carried t t') es es'
  nodup : (backups es').Nodup
  fresh : ∀ b ∈ backups es', b ∈ backups es ∨
    (t.get b = none ∧ b ∉ reserved ∧ isOperand b items = false)
  vacated : ∀ b ∈ backups es, b ∉ backups es' → t'.get b = none
  untouched : ∀ n, n ∉ backups es → n ∉ backups es' → t'.get n = t.get n

theorem Relocated.refl (h : (backups es).Nodup) : Relocated items reserved t t es es where
  carried := forall₂_same.mpr fun _ _ => Carried.of_eq fun _ _ => rfl
  nodup := h
  fresh _ hb := Or.inl hb
  vacated _ hb hn := absurd hb hn
  untouched _ _ _ := rfl

/-- **Moved backups do not show.** -/
theorem Relocated.hide_eq (h : Relocated items reserved t t' es es') :
    t'.hide (backups es') = t.hide (backups es) := by
  apply Slots.hide_congr
  intro n
  by_cases hn : n ∈ backups es
  · by_cases hn' : n ∈ backups es'
    · simp [hn, hn']
    · simp [hn, hn', h.vacated n hn hn']
  · by_cases hn' : n ∈ backups es'
    · have hfree := (h.fresh n hn').resolve_left hn
      simp [hn, hn', hfree.1]
    · simp [hn, hn', h.untouched n hn hn']

/-- What became of one entry: it stays, or it takes the lowest spare number, or there is
none. -/
theorem relocateEntry_cases {items : List Item} {reserved : List ℕ} {e : SavedDescriptor}
    {k : Kernel W D limit} (hheld : ∀ b, e.backup = some b → ∃ d, k.table.get b = some ⟨d, true⟩) :
    ((∀ b, e.backup = some b → isOperand b items = false) ∧
      relocateEntry items reserved e k = (.ok e, k)) ∨
    (∃ old d, e.backup = some old ∧ isOperand old items = true ∧ k.table.get old = some ⟨d, true⟩ ∧
      ((∃ err, spares items reserved k.table = [] ∧
          relocateEntry items reserved e k = (.error err, k)) ∨
       (∃ n rest, spares items reserved k.table = n :: rest ∧
          relocateEntry items reserved e k
            = (.ok { e with backup := some n },
               { k with table := (k.table.put n ⟨d, true⟩).clear old })))) := by
  unfold relocateEntry
  cases hb : e.backup with
  | none =>
    left
    refine ⟨fun b hb => ?_, rfl⟩
    cases hb
  | some old =>
    by_cases hop : isOperand old items = true
    · right
      obtain ⟨d, hget⟩ := hheld old hb
      refine ⟨old, d, rfl, hop, hget, ?_⟩
      dsimp only
      rw [if_neg (by simp [hop])]
      rcases @saveDescriptor_eq _ _ _ items _ reserved _ _ hget with
        ⟨err, hnone, hsave⟩ | ⟨n, rest, hsp, hsave⟩
      · left
        exact ⟨err, hnone, by rw [hsave]⟩
      · right
        exact ⟨n, rest, hsp, by rw [hsave]; rfl⟩
    · left
      have hop : isOperand old items = false := by simpa using hop
      refine ⟨fun b hb => ?_, ?_⟩
      · cases hb
        exact hop
      · dsimp only
        rw [if_pos (by simp [hop])]

/-- One entry moves in front of others that stay to be looked at. -/
theorem Relocated.cons {items : List Item} {reserved : List ℕ} {t t₁ t' : Slots limit (Slot D)}
    {e : SavedDescriptor} {es es' : List SavedDescriptor} {old n : ℕ} {d : D}
    (hold : e.backup = some old) (hget : t.get old = some ⟨d, true⟩)
    (hnlt : n < limit) (hfree : t.get n = none) (hres : n ∉ reserved) (hop : isOperand n items = false)
    (ht₁ : t₁ = (t.put n ⟨d, true⟩).clear old) (hnodup : (old :: backups es).Nodup)
    (hheld : Held t es) (h : Relocated items reserved t₁ t' es es') :
    Relocated items reserved t t' (e :: es) ({ e with backup := some n } :: es') := by
  have hne : n ≠ old := by
    rintro rfl
    rw [hfree] at hget
    cases hget
  have hnotOld : old ∉ backups es := (nodup_cons.mp hnodup).1
  have hnotNew : n ∉ backups es := by
    intro hn
    obtain ⟨d', hd'⟩ := hheld n hn
    rw [hfree] at hd'
    cases hd'
  have hn₁ : t₁.get n = some ⟨d, true⟩ := by
    rw [ht₁, Slots.get_clear, if_neg hne, Slots.get_put_self hnlt]
  have hold₁ : t₁.get old = none := by
    rw [ht₁, Slots.get_clear, if_pos rfl]
  have hsame₁ : ∀ m, m ≠ n → m ≠ old → t₁.get m = t.get m := by
    intro m hmn hmo
    rw [ht₁, Slots.get_clear, if_neg hmo, Slots.get_put_of_ne _ hmn]
  have hrest₁ : ∀ b ∈ backups es, t₁.get b = t.get b := by
    intro b hb
    exact hsame₁ b (fun he => hnotNew (he ▸ hb)) (fun he => hnotOld (he ▸ hb))
  -- the new number is taken, so the others do not move onto it
  have hnotNew' : n ∉ backups es' := by
    intro hn
    rcases h.fresh n hn with hn | ⟨hn, -⟩
    · exact hnotNew hn
    · rw [hn₁] at hn
      cases hn
  have hcarried : List.Forall₂ (Carried t t') es es' := by
    refine forall₂_carried_of_eq hrest₁ h.carried
  refine ⟨?_, ?_, ?_, ?_, ?_⟩
  · refine List.Forall₂.cons ⟨rfl, rfl, ?_⟩ hcarried
    rw [hold]
    have hn' := h.untouched n hnotNew hnotNew'
    simp only [CarriedSlot]
    rw [hn', hn₁, hget]
  · rw [backups_cons_some (b := n) rfl]
    exact nodup_cons.mpr ⟨hnotNew', h.nodup⟩
  · intro b hb
    rw [backups_cons_some (b := n) rfl] at hb
    rw [backups_cons_some hold]
    rcases mem_cons.mp hb with rfl | hb
    · exact Or.inr ⟨hfree, hres, hop⟩
    · rcases h.fresh b hb with hb' | ⟨hb', hb''⟩
      · exact Or.inl (mem_cons_of_mem _ hb')
      · by_cases hbo : b = old
        · exact Or.inl (hbo ▸ mem_cons_self)
        · have hbn : b ≠ n := fun he => hnotNew' (he ▸ hb)
          rw [hsame₁ b hbn hbo] at hb'
          exact Or.inr ⟨hb', hb''⟩
  · intro b hb hnb
    rw [backups_cons_some hold] at hb
    rw [backups_cons_some (b := n) rfl, mem_cons, not_or] at hnb
    rcases mem_cons.mp hb with rfl | hb
    · rw [h.untouched b hnotOld hnb.2, hold₁]
    · exact h.vacated b hb hnb.2
  · intro m hm hm'
    rw [backups_cons_some hold, mem_cons, not_or] at hm
    rw [backups_cons_some (b := n) rfl, mem_cons, not_or] at hm'
    rw [h.untouched m hm.2 hm'.2, hsame₁ m hm'.1 hm.1]

/-- An entry that stays in front of others that may move. -/
theorem Relocated.keep (hnodup : (backups (e :: es)).Nodup)
    (hheld : Held t (e :: es)) (h : Relocated items reserved t t' es es') :
    Relocated items reserved t t' (e :: es) (e :: es') := by
  cases hb : e.backup with
  | none =>
    refine ⟨List.Forall₂.cons (Carried.of_eq fun b hb' => ?_) h.carried, ?_, ?_, ?_, ?_⟩
    · rw [hb] at hb'
      cases hb'
    · rw [backups_cons_none hb]
      exact h.nodup
    · rw [backups_cons_none hb, backups_cons_none hb]
      exact h.fresh
    · rw [backups_cons_none hb, backups_cons_none hb]
      exact h.vacated
    · rw [backups_cons_none hb, backups_cons_none hb]
      exact h.untouched
  | some b =>
    rw [Held, backups_cons_some hb] at hheld
    rw [backups_cons_some hb] at hnodup
    have hnot : b ∉ backups es := (nodup_cons.mp hnodup).1
    -- the backup is open, so no other one moves onto it
    have hnot' : b ∉ backups es' := by
      intro hmem
      rcases h.fresh b hmem with hmem | ⟨hfree, -⟩
      · exact hnot hmem
      · obtain ⟨d, hd⟩ := hheld b mem_cons_self
        rw [hfree] at hd
        cases hd
    refine ⟨List.Forall₂.cons (Carried.of_eq fun c hc => ?_) h.carried, ?_, ?_, ?_, ?_⟩
    · rw [hb] at hc
      cases hc
      exact h.untouched b hnot hnot'
    · rw [backups_cons_some hb]
      exact nodup_cons.mpr ⟨hnot', h.nodup⟩
    · rw [backups_cons_some hb, backups_cons_some hb]
      intro c hc
      rcases mem_cons.mp hc with rfl | hc
      · exact Or.inl mem_cons_self
      · exact (h.fresh c hc).imp (mem_cons_of_mem b) id
    · rw [backups_cons_some hb, backups_cons_some hb]
      intro c hc hnc
      rw [mem_cons, not_or] at hnc
      exact h.vacated c ((mem_cons.mp hc).resolve_left hnc.1) hnc.2
    · rw [backups_cons_some hb, backups_cons_some hb]
      intro m hm hm'
      rw [mem_cons, not_or] at hm hm'
      exact h.untouched m hm.2 hm'.2

/-- The kernel after a step that moved a backup holds the others as before. -/
theorem held_after {t t₁ : Slots limit (Slot D)} {old n : ℕ} {d : D}
    (ht₁ : t₁ = (t.put n ⟨d, true⟩).clear old) (hfree : t.get n = none) (hold : old ∉ backups es)
    (hheld : Held t es) : Held t₁ es := by
  intro b hb
  obtain ⟨d', hd'⟩ := hheld b hb
  have hbn : b ≠ n := by
    rintro rfl
    rw [hfree] at hd'
    cases hd'
  have hbo : b ≠ old := fun he => hold (he ▸ hb)
  exact ⟨d', by rw [ht₁, Slots.get_clear, if_neg hbo, Slots.get_put_of_ne _ hbn, hd']⟩

theorem backups_of_cons (h : (backups (e :: es)).Nodup) : (backups es).Nodup := by
  cases hb : e.backup with
  | none =>
    rw [backups_cons_none hb] at h
    exact h
  | some b =>
    rw [backups_cons_some hb] at h
    exact (nodup_cons.mp h).2

theorem held_of_cons (h : Held t (e :: es)) : Held t es := by
  intro b hb
  refine h b ?_
  obtain ⟨e', he', hb'⟩ := mem_backups.mp hb
  exact mem_backups.mpr ⟨e', mem_cons_of_mem e he', hb'⟩

theorem held_head (h : Held t (e :: es)) : ∀ b, e.backup = some b → ∃ d, t.get b = some ⟨d, true⟩ :=
  fun b hb => h b (mem_backups.mpr ⟨e, mem_cons_self, hb⟩)

/-- **Moving outer backups does not show and loses none of them.**  Where all could be
moved, none is an operand; they take the spare numbers from the lowest on. -/
theorem relocateEntries_spec {items : List Item} {reserved : List ℕ} (es : List SavedDescriptor)
    (k : Kernel W D limit) (hnodup : (backups es).Nodup) (hheld : Held k.table es) :
    ∃ result es' t', relocateEntries items reserved es k = (result, es', { k with table := t' }) ∧
      Relocated items reserved k.table t' es es' ∧
      (result = none → ∀ b ∈ backups es', isOperand b items = false) ∧
      (∃ moved ≤ (backups es).length,
        spares items reserved t' = (spares items reserved k.table).drop moved ∧
        (result ≠ none → spares items reserved t' = [])) := by
  induction es generalizing k with
  | nil =>
    refine ⟨none, [], k.table, rfl, Relocated.refl hnodup, ?_, 0, le_refl 0, rfl, ?_⟩
    · intro _ b hb
      cases hb
    · intro h
      exact absurd rfl h
  | cons e es ih =>
    have hnodup' := backups_of_cons hnodup
    have hheld' := held_of_cons hheld
    rcases @relocateEntry_cases _ _ _ items reserved e k (held_head hheld) with
      ⟨hstay, hone⟩ | ⟨old, d, hb, hop, hget, ⟨err, hnone, hone⟩ | ⟨n, rest, hsp, hone⟩⟩
    · -- the backup is no operand and stays
      obtain ⟨result, es', t', hrun, hrel, hclear, moved, hmoved, hsp, hfail⟩ :=
        ih k hnodup' hheld'
      refine ⟨result, e :: es', t', ?_, hrel.keep hnodup hheld, ?_, moved, ?_, hsp, hfail⟩
      · simp only [relocateEntries, hone, hrun]
      · intro hok b hmem
        obtain ⟨e', he', hb'⟩ := mem_backups.mp hmem
        rcases mem_cons.mp he' with rfl | he'
        · exact hstay b hb'
        · exact hclear hok b (mem_backups.mpr ⟨e', he', hb'⟩)
      · exact le_trans hmoved (List.Sublist.length_le ((sublist_cons_self e es).filterMap _))
    · -- no number is left
      refine ⟨some err, e :: es, k.table, ?_, Relocated.refl hnodup, ?_, 0, Nat.zero_le _, rfl, ?_⟩
      · simp only [relocateEntries, hone]
      · intro h
        cases h
      · intro _
        exact hnone
    · -- the backup takes the lowest spare number
      rw [backups_cons_some hb] at hnodup
      have hnotOld : old ∉ backups es := (nodup_cons.mp hnodup).1
      obtain ⟨hnlt, hnspare, -, -⟩ := spares_eq_cons hsp
      obtain ⟨-, hfree, hres, hnop⟩ := isSpare_iff.mp hnspare
      have hne : n ≠ old := by
        rintro rfl
        rw [hop] at hnop
        cases hnop
      let t₁ := (k.table.put n ⟨d, true⟩).clear old
      have hheld₁ : Held t₁ es := held_after rfl hfree hnotOld hheld'
      have hsp₁ : spares items reserved t₁ = rest := by
        refine spares_after hsp ?_ ?_
        · have hn₁ : t₁.get n = some ⟨d, true⟩ := by
            rw [Slots.get_clear, if_neg hne, Slots.get_put_self hnlt]
          rw [hn₁]
          exact Option.some_ne_none _
        · intro m hmn hmop
          have hmo : m ≠ old := by
            rintro rfl
            rw [hop] at hmop
            cases hmop
          rw [Slots.get_clear, if_neg hmo, Slots.get_put_of_ne _ hmn]
      obtain ⟨result, es', t', hrun, hrel, hclear, moved, hmoved, hspares, hfail⟩ :=
        ih { k with table := t₁ } hnodup' hheld₁
      refine ⟨result, { e with backup := some n } :: es', t', ?_, ?_, ?_, moved + 1, ?_, ?_, hfail⟩
      · simp only [relocateEntries, hone, t₁] at hrun ⊢
        rw [hrun]
      · exact hrel.cons hb hget hnlt hfree hres hnop rfl hnodup hheld'
      · intro hok b hmem
        rw [backups_cons_some (b := n) rfl] at hmem
        rcases mem_cons.mp hmem with rfl | hmem
        · exact hnop
        · exact hclear hok b hmem
      · rw [backups_cons_some hb, length_cons]
        omega
      · rw [hspares, hsp, hsp₁]
        rfl

/-! ### Backups and the targets restored before them -/

/-- No backup sits at a target that is restored no later than it is used: at its own, or
at one of an entry in front of it.  `before` are the targets further in front. -/
def sheltered : List ℕ → List SavedDescriptor → Bool
  | _, [] => true
  | before, e :: es =>
    (e.backup.all fun b => !(e.target :: before).contains b) && sheltered (e.target :: before) es

/-- The backups that are operands of a new list take the numbers `free` in turn; none of
these is a target restored no later. -/
def clearOfTargets (items : List Item) : List ℕ → List ℕ → List SavedDescriptor → Bool
  | _, _, [] => true
  | free, before, e :: es =>
    if e.backup.any fun b => isOperand b items then
      match free with
      | [] => true
      | n :: free =>
        !(e.target :: before).contains n && clearOfTargets items free (e.target :: before) es
    else clearOfTargets items free (e.target :: before) es

/-- **Moved backups stay sheltered** where the numbers they get are clear of targets. -/
theorem sheltered_relocateEntries
    (es : List SavedDescriptor) (k : Kernel W D limit) (before : List ℕ)
    (hnodup : (backups es).Nodup) (hheld : Held k.table es) (hs : sheltered before es = true)
    (hclear : clearOfTargets items (spares items reserved k.table) before es = true) :
    sheltered before (relocateEntries items reserved es k).2.1 = true := by
  induction es generalizing k before with
  | nil => rfl
  | cons e es ih =>
    have hnodup' := backups_of_cons hnodup
    have hheld' := held_of_cons hheld
    have hs₀ := hs
    simp only [sheltered, Bool.and_eq_true] at hs
    rcases @relocateEntry_cases _ _ _ items reserved e k (held_head hheld) with
      ⟨hstay, hone⟩ | ⟨old, d, hb, hop, hget, ⟨err, hnone, hone⟩ | ⟨n, rest, hsp, hone⟩⟩
    · have hno : (e.backup.any fun b => isOperand b items) = false := by
        cases hb : e.backup with
        | none => rfl
        | some b => exact hstay b hb
      simp only [clearOfTargets, hno, Bool.false_eq_true, if_false] at hclear
      simp only [relocateEntries, hone, sheltered, Bool.and_eq_true]
      exact ⟨hs.1, ih k _ hnodup' hheld' hs.2 hclear⟩
    · simp only [relocateEntries, hone]
      exact hs₀
    · rw [backups_cons_some hb] at hnodup
      have hnotOld : old ∉ backups es := (nodup_cons.mp hnodup).1
      obtain ⟨hnlt, hnspare, -, -⟩ := spares_eq_cons hsp
      obtain ⟨-, hfree, -, hnop⟩ := isSpare_iff.mp hnspare
      have hne : n ≠ old := by
        rintro rfl
        rw [hop] at hnop
        cases hnop
      have hyes : (e.backup.any fun b => isOperand b items) = true := by
        rw [hb]
        exact hop
      simp only [clearOfTargets, hyes, if_true, hsp, Bool.and_eq_true] at hclear
      have hsp₁ : spares items reserved ((k.table.put n ⟨d, true⟩).clear old) = rest := by
        refine spares_after hsp ?_ ?_
        · rw [Slots.get_clear, if_neg hne, Slots.get_put_self hnlt]
          exact Option.some_ne_none _
        · intro m hmn hmop
          have hmo : m ≠ old := by
            rintro rfl
            rw [hop] at hmop
            cases hmop
          rw [Slots.get_clear, if_neg hmo, Slots.get_put_of_ne _ hmn]
      have hrest := ih { k with table := (k.table.put n ⟨d, true⟩).clear old } (e.target :: before)
        hnodup' (held_after rfl hfree hnotOld hheld') hs.2 (by rw [hsp₁]; exact hclear.2)
      simp only [relocateEntries, hone, sheltered, Bool.and_eq_true]
      exact ⟨by simpa using hclear.1, hrest⟩

/-- What a sheltered list says of one entry and of those behind it. -/
theorem sheltered_cons (h : sheltered before (e :: es) = true) :
    (∀ b, e.backup = some b → b ≠ e.target ∧ b ∉ before) ∧
      sheltered (e.target :: before) es = true := by
  simp only [sheltered, Bool.and_eq_true] at h
  refine ⟨fun b hb => ?_, h.2⟩
  have hall := h.1
  rw [hb] at hall
  simpa using hall

/-- Backups behind a target are not at it. -/
theorem notMem_of_sheltered
    (h : sheltered before es = true) {n : ℕ} (hn : n ∈ before) : n ∉ backups es := by
  induction es generalizing before with
  | nil => simp
  | cons e es ih =>
    obtain ⟨hhead, hrest⟩ := sheltered_cons h
    intro hmem
    obtain ⟨e', he', hb'⟩ := mem_backups.mp hmem
    rcases mem_cons.mp he' with rfl | he'
    · exact (hhead n hb').2 hn
    · exact ih hrest (mem_cons_of_mem e.target hn) (mem_backups.mpr ⟨e', he', hb'⟩)

/-- Fewer targets in front are easier to be clear of. -/
theorem sheltered_mono {before before' : List ℕ}
    (hsub : ∀ n ∈ before', n ∈ before) (h : sheltered before es = true) :
    sheltered before' es = true := by
  induction es generalizing before before' with
  | nil => rfl
  | cons e es ih =>
    obtain ⟨hhead, hrest⟩ := sheltered_cons h
    simp only [sheltered, Bool.and_eq_true]
    constructor
    · cases hb : e.backup with
      | none => rfl
      | some b =>
        have hb' := hhead b hb
        have hnot : b ∉ before' := fun hmem => hb'.2 (hsub b hmem)
        simp [hb'.1, hnot]
    · refine ih (fun n hn => ?_) hrest
      rcases mem_cons.mp hn with rfl | hn
      · exact mem_cons_self
      · exact mem_cons_of_mem _ (hsub n hn)

theorem sheltered_append {es fs : List SavedDescriptor} :
    sheltered before (es ++ fs) = true ↔
      sheltered before es = true ∧ sheltered ((targets es).reverse ++ before) fs = true := by
  induction es generalizing before with
  | nil => simp [sheltered]
  | cons e es ih =>
    simp only [cons_append, sheltered, Bool.and_eq_true, ih, targets_cons, reverse_cons,
      append_assoc, nil_append]
    exact and_assoc.symm

/-- Backups that are at no target are sheltered. -/
theorem sheltered_of_notMem
    (h : ∀ b ∈ backups es, b ∉ before ∧ b ∉ targets es) : sheltered before es = true := by
  induction es generalizing before with
  | nil => rfl
  | cons e es ih =>
    simp only [sheltered, Bool.and_eq_true]
    constructor
    · cases hb : e.backup with
      | none => rfl
      | some b =>
        have hb' := h b (mem_backups.mpr ⟨e, mem_cons_self, hb⟩)
        rw [targets_cons, mem_cons, not_or] at hb'
        simp [hb'.1, hb'.2.1]
    · refine ih fun b hb => ?_
      obtain ⟨e', he', hb'⟩ := mem_backups.mp hb
      have hmem := h b (mem_backups.mpr ⟨e', mem_cons_of_mem e he', hb'⟩)
      rw [targets_cons, mem_cons, not_or] at hmem
      exact ⟨by simp [hmem.1, hmem.2.1], hmem.2.2⟩

/-- More targets in front, at none of which a backup is. -/
theorem sheltered_extend {before more : List ℕ}
    (h : sheltered before es = true) (hmore : ∀ b ∈ backups es, b ∉ more) :
    sheltered (before ++ more) es = true := by
  induction es generalizing before with
  | nil => rfl
  | cons e es ih =>
    obtain ⟨hhead, hrest⟩ := sheltered_cons h
    simp only [sheltered, Bool.and_eq_true]
    constructor
    · cases hb : e.backup with
      | none => rfl
      | some b =>
        have hb' := hhead b hb
        have hnot := hmore b (mem_backups.mpr ⟨e, mem_cons_self, hb⟩)
        simp [hb'.1, hb'.2, hnot]
    · refine ih hrest fun b hb => ?_
      obtain ⟨e', he', hb'⟩ := mem_backups.mp hb
      exact hmore b (mem_backups.mpr ⟨e', mem_cons_of_mem e he', hb'⟩)

/-! ### The snapshot -/

/-- An entry remembers what a target was: nothing, or the slot whose description its
backup holds. -/
def Remembers (t₀ t : Slots limit (Slot D)) (e : SavedDescriptor) : Prop :=
  match e.backup with
  | none => t₀.get e.target = none
  | some b => ∃ d, t₀.get e.target = some ⟨d, e.flags⟩ ∧ t.get b = some ⟨d, true⟩

/-- The entries of a snapshot of `t₀`, with their backups in `t`. -/
structure Snapshot (items : List Item) (reserved : List ℕ) (t₀ t : Slots limit (Slot D))
    (entries : List SavedDescriptor) : Prop where
  targets_nodup : (targets entries).Nodup
  nodup : (backups entries).Nodup
  remembers : ∀ e ∈ entries, Remembers t₀ t e
  fresh : ∀ b ∈ backups entries, t₀.get b = none ∧ b ∉ reserved ∧ isOperand b items = false
  untouched : ∀ n, n ∉ backups entries → t.get n = t₀.get n

theorem Snapshot.nil {items : List Item} {reserved : List ℕ} (t : Slots limit (Slot D)) :
    Snapshot items reserved t t [] where
  targets_nodup := nodup_nil
  nodup := nodup_nil
  remembers e he := by cases he
  fresh b hb := by cases hb
  untouched n _ := rfl

theorem Snapshot.held (h : Snapshot items reserved t₀ t entries) :
    Held t entries := by
  intro b hb
  obtain ⟨e, he, hb⟩ := mem_backups.mp hb
  have hr := h.remembers e he
  simp only [Remembers, hb] at hr
  obtain ⟨d, -, hd⟩ := hr
  exact ⟨d, hd⟩

/-- Giving the backups up leaves the table the snapshot was taken of. -/
theorem Snapshot.discard {k : Kernel W D limit}
    (h : Snapshot items reserved t₀ k.table entries) :
    discard entries k = { k with table := t₀ } := by
  -- closing the backups one after another closes exactly them
  have key : ∀ (entries : List SavedDescriptor) (k : Kernel W D limit),
      ∃ t, Redirect.discard entries k = { k with table := t } ∧
        ∀ n, t.get n = if n ∈ backups entries then none else k.table.get n := by
    intro entries
    induction entries with
    | nil => exact fun k => ⟨k.table, rfl, by simp⟩
    | cons e entries ih =>
      intro k
      cases hb : e.backup with
      | none =>
        obtain ⟨t, ht, hget⟩ := ih k
        refine ⟨t, ?_, ?_⟩
        · rw [← ht]
          simp [Redirect.discard, hb]
        · rw [backups_cons_none hb]
          exact hget
      | some b =>
        obtain ⟨t, ht, hget⟩ := ih (k.closeDescriptor b)
        refine ⟨t, ?_, fun n => ?_⟩
        · have hstep : Redirect.discard (e :: entries) k
              = Redirect.discard entries (k.closeDescriptor b) := by
            simp [Redirect.discard, hb]
          rw [hstep, ht]
          rfl
        · rw [hget n, backups_cons_some hb]
          simp only [Kernel.closeDescriptor, Slots.get_clear, mem_cons]
          by_cases hn : n ∈ backups entries
          · simp [hn]
          · by_cases hnb : n = b
            · simp [hnb]
            · simp [hn, hnb]
  obtain ⟨t, ht, hget⟩ := key entries k
  have heq : t = t₀ := by
    ext1
    funext n
    rw [hget n]
    split
    · next hn => exact (h.fresh n hn).1.symm
    · next hn => exact h.untouched n hn
  rw [ht, heq]

/-- A target that was closed. -/
theorem Snapshot.addClosed (h : Snapshot items reserved t₀ t entries) {target index : ℕ}
    (hnew : target ∉ targets entries) (hclosed : t₀.get target = none) :
    Snapshot items reserved t₀ t (entries ++ [⟨target, none, false, index⟩]) := by
  have hb : backups (entries ++ [⟨target, none, false, index⟩]) = backups entries := by
    rw [backups_append, backups_cons_none rfl, backups_nil, append_nil]
  refine ⟨?_, by rw [hb]; exact h.nodup, ?_, by rw [hb]; exact h.fresh, by rw [hb]; exact h.untouched⟩
  · rw [targets_append, nodup_append]
    refine ⟨h.targets_nodup, by simp, ?_⟩
    rintro a ha b hb rfl
    have hab : a = target := by simpa using hb
    exact hnew (hab ▸ ha)
  · intro e he
    rcases mem_append.mp he with he | he
    · exact h.remembers e he
    · obtain rfl : e = _ := by simpa using he
      exact hclosed

/-- A target that was open, with its new backup. -/
theorem Snapshot.addOpen (h : Snapshot items reserved t₀ t entries)
    {target index n : ℕ} {slot : Slot D} (hnew : target ∉ targets entries)
    (hopen : t₀.get target = some slot) (hn : n < limit) (hspare : isSpare items reserved t n = true) :
    Snapshot items reserved t₀ (t.put n ⟨slot.description, true⟩)
      (entries ++ [⟨target, some n, slot.cloexec, index⟩]) := by
  obtain ⟨-, hfree, hres, hop⟩ := isSpare_iff.mp hspare
  have hb : backups (entries ++ [⟨target, some n, slot.cloexec, index⟩]) = backups entries ++ [n] := by
    rw [backups_append, backups_cons_some (b := n) rfl, backups_nil]
  -- the new number was free, so it is no backup yet
  have hnot : n ∉ backups entries := by
    intro hmem
    obtain ⟨d, hd⟩ := h.held n hmem
    rw [hfree] at hd
    cases hd
  have hkeep : ∀ m, m ≠ n → (t.put n ⟨slot.description, true⟩).get m = t.get m :=
    fun m hm => Slots.get_put_of_ne _ hm _
  refine ⟨?_, ?_, ?_, ?_, ?_⟩
  · rw [targets_append, nodup_append]
    refine ⟨h.targets_nodup, by simp, ?_⟩
    rintro a ha b hb rfl
    have hab : a = target := by simpa using hb
    exact hnew (hab ▸ ha)
  · rw [hb, nodup_append]
    refine ⟨h.nodup, by simp, ?_⟩
    rintro a ha b hb rfl
    have hab : a = n := by simpa using hb
    exact hnot (hab ▸ ha)
  · intro e he
    rcases mem_append.mp he with he | he
    · have hr := h.remembers e he
      unfold Remembers at hr ⊢
      cases hb' : e.backup with
      | none =>
        rw [hb'] at hr
        exact hr
      | some b =>
        rw [hb'] at hr
        obtain ⟨d, hd, hd'⟩ := hr
        have hbn : b ≠ n := fun heq => hnot (heq ▸ mem_backups.mpr ⟨e, he, hb'⟩)
        exact ⟨d, hd, by rw [hkeep b hbn]; exact hd'⟩
    · obtain rfl : e = _ := by simpa using he
      exact ⟨slot.description, hopen, Slots.get_put_self hn _⟩
  · rw [hb]
    intro b hmem
    rcases mem_append.mp hmem with hmem | hmem
    · exact h.fresh b hmem
    · obtain rfl : b = n := by simpa using hmem
      rw [← h.untouched b hnot]
      exact ⟨hfree, hres, hop⟩
  · rw [hb]
    intro m hm
    rw [mem_append, not_or] at hm
    have hmn : m ≠ n := by simpa using hm.2
    rw [hkeep m hmn]
    exact h.untouched m hm.1

/-- **The snapshot holds what the targets were, or gives all backups up.**  It takes at
most one spare number for each item. -/
theorem snapshot_spec {items : List Item} {reserved : List ℕ} {t₀ : Slots limit (Slot D)}
    (rest : List (Item × ℕ)) (hop : ∀ item ∈ rest, isOperand item.1.target items = true)
    (entries : List SavedDescriptor) (k : Kernel W D limit)
    (h : Snapshot items reserved t₀ k.table entries) :
    (∃ err index, snapshot items reserved rest entries k
        = (.error (err, index), { k with table := t₀ }) ∧
      (spares items reserved k.table).length < rest.length) ∨
    (∃ entries' t, snapshot items reserved rest entries k = (.ok entries', { k with table := t }) ∧
      Snapshot items reserved t₀ t entries' ∧
      (∀ n, n ∈ targets entries' ↔ n ∈ targets entries ∨ ∃ item ∈ rest, item.1.target = n) ∧
      (spares items reserved k.table).length ≤ (spares items reserved t).length + rest.length) := by
  induction rest generalizing entries k with
  | nil =>
    right
    exact ⟨entries, k.table, rfl, h, by simp, by simp⟩
  | cons head rest ih =>
    obtain ⟨item, index⟩ := head
    have hop' : ∀ i ∈ rest, isOperand i.1.target items = true :=
      fun i hi => hop i (mem_cons_of_mem _ hi)
    have htarget : isOperand item.target items = true := hop (item, index) mem_cons_self
    by_cases hany : (entries.any fun entry => entry.target == item.target) = true
    · -- the target is in the snapshot already
      have hmem : item.target ∈ targets entries := by
        obtain ⟨e, he, heq⟩ := any_eq_true.mp hany
        exact mem_map.mpr ⟨e, he, by simpa using heq⟩
      rw [snapshot, if_pos hany]
      rcases ih hop' entries k h with ⟨err, i, hrun, hlen⟩ | ⟨entries', t, hrun, hsnap, htargets, hlen⟩
      · left
        exact ⟨err, i, hrun, by rw [length_cons]; omega⟩
      · right
        refine ⟨entries', t, hrun, hsnap, fun n => ?_, by rw [length_cons]; omega⟩
        rw [htargets n]
        simp only [mem_cons, exists_eq_or_imp]
        constructor
        · exact fun h => h.imp id Or.inr
        · rintro (h | h | h)
          · exact Or.inl h
          · exact Or.inl (h ▸ hmem)
          · exact Or.inr h
    · have hnew : item.target ∉ targets entries := by
        intro hmem
        obtain ⟨e, he, heq⟩ := mem_map.mp hmem
        exact hany (any_eq_true.mpr ⟨e, he, by simpa using heq⟩)
      -- the target is no backup, so it is what it was when the snapshot began
      have hnotBackup : item.target ∉ backups entries := by
        intro hmem
        have := (h.fresh _ hmem).2.2
        rw [htarget] at this
        cases this
      have hget := h.untouched item.target hnotBackup
      have hcombine : ∀ (entries₁ : List SavedDescriptor) (k₁ : Kernel W D limit),
          targets entries₁ = targets entries ++ [item.target] →
          Snapshot items reserved t₀ k₁.table entries₁ → k₁ = { k with table := k₁.table } →
          (spares items reserved k.table).length ≤ (spares items reserved k₁.table).length + 1 →
          (∃ err index, snapshot items reserved rest entries₁ k₁
              = (.error (err, index), { k with table := t₀ }) ∧
            (spares items reserved k.table).length < rest.length + 1) ∨
          (∃ entries' t, snapshot items reserved rest entries₁ k₁
              = (.ok entries', { k with table := t }) ∧
            Snapshot items reserved t₀ t entries' ∧
            (∀ n, n ∈ targets entries' ↔
              n ∈ targets entries ∨ ∃ i ∈ (item, index) :: rest, i.1.target = n) ∧
            (spares items reserved k.table).length
              ≤ (spares items reserved t).length + (rest.length + 1)) := by
        intro entries₁ k₁ htargets₁ hsnap₁ hk₁ hlen₁
        rcases ih hop' entries₁ k₁ hsnap₁ with
          ⟨err, i, hrun, hlen⟩ | ⟨entries', t, hrun, hsnap, htargets, hlen⟩
        · left
          refine ⟨err, i, ?_, by omega⟩
          rw [hrun, hk₁]
        · right
          refine ⟨entries', t, ?_, hsnap, fun n => ?_, by omega⟩
          · rw [hrun, hk₁]
          · rw [htargets n, htargets₁]
            simp only [mem_append, mem_cons, not_mem_nil, or_false, exists_eq_or_imp]
            rw [or_assoc, eq_comm (a := n)]
      rw [snapshot, if_neg hany]
      unfold Kernel.descriptorFlags
      cases hslot : k.table.get item.target with
      | none =>
        rw [hslot] at hget
        exact hcombine _ k (by simp) (h.addClosed hnew hget.symm) rfl (by omega)
      | some slot =>
        rw [hslot] at hget
        simp only [Option.map_some]
        rcases @saveDescriptor_eq _ _ _ items _ reserved k slot hslot with
          ⟨err, hnone, hsave⟩ | ⟨n, more, hsp, hsave⟩
        · left
          refine ⟨err, index, ?_, by rw [hnone, length_cons]; simp⟩
          rw [hsave]
          exact congrArg _ h.discard
        · rw [hsave]
          obtain ⟨hnlt, hnspare, -, -⟩ := spares_eq_cons hsp
          have hsp₁ : spares items reserved (k.table.put n ⟨slot.description, true⟩) = more := by
            refine spares_after hsp ?_ ?_
            · rw [Slots.get_put_self hnlt]
              exact Option.some_ne_none _
            · intro m hmn _
              rw [Slots.get_put_of_ne _ hmn]
          refine hcombine _ _ (by simp) (h.addOpen hnew hget.symm hnlt hnspare) rfl ?_
          rw [hsp₁, hsp, length_cons]

/-! ### Putting the targets back -/

/-- What an entry puts back. -/
def restoredSlot (t : Slots limit (Slot D)) (e : SavedDescriptor) : Option (Slot D) :=
  e.backup.bind fun b => (t.get b).map fun slot => ⟨slot.description, e.flags⟩

/-- One entry: its target is put back and its backup closed. -/
theorem restoreEntry_eq {k : Kernel W D limit}
    (hheld : ∀ b, e.backup = some b → ∃ d, k.table.get b = some ⟨d, true⟩)
    (hlt : e.backup ≠ none → e.target < limit) (hne : ∀ b, e.backup = some b → b ≠ e.target) :
    ∃ t, restoreEntry e k = (.ok (), { k with table := t }) ∧
      t.get e.target = restoredSlot k.table e ∧
      (∀ b, e.backup = some b → t.get b = none) ∧
      (∀ n, n ≠ e.target → (∀ b, e.backup = some b → n ≠ b) → t.get n = k.table.get n) := by
  unfold restoreEntry restoredSlot
  cases hb : e.backup with
  | none =>
    refine ⟨k.table.clear e.target, rfl, by simp, ?_, ?_⟩
    · intro b hb
      cases hb
    · intro n hn _
      rw [Slots.get_clear, if_neg hn]
  | some b =>
    obtain ⟨d, hd⟩ := hheld b hb
    have hbt := hne b hb
    have htlt : e.target < limit := hlt (by rw [hb]; exact Option.some_ne_none b)
    refine ⟨(k.table.put e.target ⟨d, e.flags⟩).clear b, ?_, ?_, ?_, ?_⟩
    · simp only [Kernel.duplicateTo, hd, Kernel.setDescriptorFlags, Kernel.closeDescriptor]
      rw [if_neg (not_le.mpr htlt), if_neg hbt]
      simp only [Slots.get_put_self htlt, Slots.put_put]
    · rw [Slots.get_clear, if_neg (Ne.symm hbt), Slots.get_put_self htlt]
      simp [hd]
    · intro c hc
      cases hc
      rw [Slots.get_clear, if_pos rfl]
    · intro n hn hnb
      rw [Slots.get_clear, if_neg (hnb b rfl), Slots.get_put_of_ne _ hn]

/-- **Sheltered entries put their targets back**: no call fails, each target is what its
entry remembers, and the backups are closed. -/
theorem restoreEntries_spec (es : List SavedDescriptor) (k : Kernel W D limit) (before : List ℕ)
    (htargets : (targets es).Nodup) (hnodup : (backups es).Nodup) (hheld : Held k.table es)
    (hlt : ∀ e ∈ es, e.backup ≠ none → e.target < limit) (hs : sheltered before es = true) :
    ∃ t, restoreEntries es k = (.ok (), { k with table := t }) ∧
      (∀ e ∈ es, t.get e.target = restoredSlot k.table e) ∧
      (∀ n, n ∉ targets es → n ∈ backups es → t.get n = none) ∧
      (∀ n, n ∉ targets es → n ∉ backups es → t.get n = k.table.get n) := by
  induction es generalizing k before with
  | nil =>
    refine ⟨k.table, rfl, ?_, ?_, ?_⟩
    · intro e he
      cases he
    · intro n _ hn
      cases hn
    · intro n _ _
      rfl
  | cons e es ih =>
    obtain ⟨hhead, hrest⟩ := sheltered_cons hs
    rw [targets_cons, nodup_cons] at htargets
    obtain ⟨t₁, hone, htarget₁, hback₁, hsame₁⟩ :=
      restoreEntry_eq (held_head hheld) (hlt e mem_cons_self) fun b hb => (hhead b hb).1
    -- the backups behind are neither the target nor the backup of this entry
    have hnotTarget : e.target ∉ backups es := notMem_of_sheltered hrest mem_cons_self
    have hnotBackup : ∀ b, e.backup = some b → b ∉ backups es := by
      intro b hb
      rw [backups_cons_some hb] at hnodup
      exact (nodup_cons.mp hnodup).1
    have hkeep : ∀ b ∈ backups es, t₁.get b = k.table.get b := by
      intro b hb
      exact hsame₁ b (fun he => hnotTarget (he ▸ hb)) fun c hc he => hnotBackup c hc (he ▸ hb)
    have hheld₁ : Held t₁ es := by
      intro b hb
      rw [hkeep b hb]
      exact held_of_cons hheld b hb
    obtain ⟨t, hrun, hput, hclosed, hsame⟩ := ih { k with table := t₁ } (e.target :: before)
      htargets.2 (backups_of_cons hnodup) hheld₁ (fun e' he' => hlt e' (mem_cons_of_mem e he'))
      hrest
    refine ⟨t, ?_, ?_, ?_, ?_⟩
    · simp only [restoreEntries, hone]
      exact hrun
    · intro e' he'
      rcases mem_cons.mp he' with rfl | he'
      · rw [hsame _ htargets.1 hnotTarget]
        exact htarget₁
      · rw [hput e' he']
        unfold restoredSlot
        cases hb : e'.backup with
        | none => rfl
        | some b =>
          have hmem : b ∈ backups es := mem_backups.mpr ⟨e', he', hb⟩
          simp only [Option.bind_some, hkeep b hmem]
    · intro n hn hmem
      rw [targets_cons, mem_cons, not_or] at hn
      by_cases hn' : n ∈ backups es
      · exact hclosed n hn.2 hn'
      · obtain ⟨e', he', hb'⟩ := mem_backups.mp hmem
        rcases mem_cons.mp he' with rfl | he'
        · rw [hsame n hn.2 hn']
          exact hback₁ n hb'
        · exact absurd (mem_backups.mpr ⟨e', he', hb'⟩) hn'
    · intro n hn hmem
      rw [targets_cons, mem_cons, not_or] at hn
      have hn' : n ∉ backups es := by
        intro hn'
        obtain ⟨e', he', hb'⟩ := mem_backups.mp hn'
        exact hmem (mem_backups.mpr ⟨e', mem_cons_of_mem e he', hb'⟩)
      rw [hsame n hn.2 hn']
      refine hsame₁ n hn.1 fun b hb he => ?_
      exact hmem (mem_backups.mpr ⟨e, mem_cons_self, he ▸ hb⟩)

end Redirect

end CShell
