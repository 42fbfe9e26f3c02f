import CShell.Redirect.Undo

/-!
# Private backups are invisible

A redirection list over a table that holds private backups does what the same list does
over the table without them.

## Main definitions

* `perform host items k` — the items in order, with no backups at all.
* `Process.Room p items reserved` — spare numbers enough for every backup the call may
  need, and one descriptor to borrow.

## Main results

* `backups_invisible` — **a list succeeds, or fails at the same item, as without
  backups, with the same effect; outer backups survive it, and new ones stay away from
  its operands and from the reserved numbers.**
-/

namespace CShell

namespace Redirect

variable {W D : Type} {limit : ℕ}

/-- The items of a valid list in order, over a table with no backups in it. -/
def perform (host : Host W D) (items : List Item) (k : Kernel W D limit) :
    Except Failure Unit × Kernel W D limit :=
  match validate items with
  | some failure => (.error failure, k)
  | none =>
    match applyAll host (items.zipIdx 1) k with
    | (.ok (), k) => (.ok (), k)
    | (.error (err, index), k) => (.error ⟨"cannot apply redirection", err, index⟩, k)

namespace Process

/-- There are spare numbers enough: for every live backup, for every item, and one more. -/
def Room (p : Process W D limit) (items : List Item) (reserved : List ℕ) : Prop :=
  items.length + p.backups.length + 1 ≤ (spares items reserved p.kernel.table).length

/-- The kernel as the user sees it. -/
def seen (p : Process W D limit) : Kernel W D limit := { p.kernel with table := p.visible }

end Process

/-- With backups and without them the outcome is the same: both succeed, and the user
sees the same table and file system, or both fail with the same complaint. -/
def SameOutcome (run : Except Failure (Option ℕ) × Process W D limit)
    (reference : Except Failure Unit × Kernel W D limit) : Prop :=
  match run, reference with
  | (.ok _, p), (.ok (), k) => p.seen = k
  | (.error failure, _), (.error failure', _) => failure = failure'
  | _, _ => False

/-- The backups a call leaves: one that is new, or has moved, is at a number that is
neither an operand nor reserved, and what the outer saves hold is still held. -/
structure BackupsKept (items : List Item) (reserved : List ℕ) (p p' : Process W D limit) : Prop where
  fresh : ∀ b ∈ p'.backups, b ∈ p.backups ∨ (isOperand b items = false ∧ b ∉ reserved)
  outer : ∃ own outer : List Save, p'.saves = own ++ outer ∧ own.length ≤ 1 ∧
    List.Forall₂ (CarriedSave p.kernel.table p'.kernel.table) p.saves outer

variable {p : Process W D limit} {items : List Item} {outer : List Save}
  {own : List SavedDescriptor} {reserved : List ℕ} {t₁ t₂ : Slots limit (Slot D)}

theorem BackupsKept.refl (hp : p.Coherent) (items : List Item)
    (reserved : List ℕ) : BackupsKept items reserved p p where
  fresh _ hb := Or.inl hb
  outer := ⟨[], p.saves, rfl, by simp, (Unchanged.refl hp).carried⟩

/-- The snapshot in place, the user sees what was there before. -/
theorem Prepared.hide_eq
        (h : Prepared items reserved p own outer t₁ t₂) :
    t₂.hide (backups own ++ backups (flat outer)) = p.visible := by
  have hvisible : p.visible = t₁.hide (backups (flat outer)) := h.relocated.hide_eq.symm
  rw [hvisible]
  apply Slots.hide_congr
  intro n
  by_cases hown : n ∈ backups own
  · rw [if_pos (List.mem_append_left _ hown), (h.snapshot.fresh n hown).1, ite_self]
  · rw [h.snapshot.untouched n hown]
    simp only [List.mem_append, hown, false_or]

/-- The backups of a snapshot, moved ones included, are where they may be. -/
theorem Prepared.fresh
        (h : Prepared items reserved p own outer t₁ t₂) {b : ℕ}
    (hb : b ∈ backups own ++ backups (flat outer)) :
    b ∈ p.backups ∨ (isOperand b items = false ∧ b ∉ reserved) := by
  rcases List.mem_append.mp hb with hb | hb
  · obtain ⟨-, hres, hop⟩ := h.snapshot.fresh b hb
    exact Or.inr ⟨hop, hres⟩
  · rcases h.relocated.fresh b hb with hb | ⟨-, hres, hop⟩
    · exact Or.inl hb
    · exact Or.inr ⟨hop, hres⟩

/-- No backup of a snapshot is an operand. -/
theorem Prepared.not_operand
        (h : Prepared items reserved p own outer t₁ t₂) {b : ℕ}
    (hb : b ∈ backups own ++ backups (flat outer)) : isOperand b items = false := by
  rcases List.mem_append.mp hb with hb | hb
  · exact (h.snapshot.fresh b hb).2.2
  · exact h.clear b hb

/-- A spare number that is left over is a descriptor to borrow for every item. -/
theorem Prepared.roomy (hvalid : validate items = none) (hroom : p.Room items reserved)
        (h : Prepared items reserved p own outer t₁ t₂) : Roomy items t₂ := by
  have hlen := h.spares
  have hpos : 0 < (Redirect.spares items reserved t₂).length := by
    unfold Process.Room at hroom
    omega
  obtain ⟨n, hn⟩ := List.exists_mem_of_length_pos hpos
  obtain ⟨hlt, hspare⟩ := mem_spares.mp hn
  obtain ⟨-, hfree, -, hop⟩ := isSpare_iff.mp hspare
  refine ⟨n, hlt, hfree, fun item hitem heq => ?_⟩
  have hyes := isOperand_target hitem (validate_eq_none hvalid item hitem).1
  rw [← heq, hop] at hyes
  cases hyes

/-- **Private backups are invisible.**  With numbers enough, a list over a table with
live saves ends as it does over the table the user sees, with no backups at all: it
succeeds with the same effect, or fails at the same item.  What outer saves hold is
still held afterwards, and no backup got a number that is an operand of the list or
reserved; where the list succeeds, none is at an operand. -/
theorem backups_invisible (host : Host W D) {p : Process W D limit} (hp : p.Coherent)
    (items : List Item) (reserved : List ℕ) (hroom : p.Room items reserved) :
    SameOutcome (p.applyReserved host items reserved) (perform host items p.seen) ∧
    BackupsKept items reserved p (p.applyReserved host items reserved).2 ∧
    (∀ token p', p.applyReserved host items reserved = (.ok token, p') →
      ∀ b ∈ p'.backups, isOperand b items = false) := by
  cases hvalid : validate items with
  | some failure =>
    have happly : p.applyReserved host items reserved = (.error failure, p) := by
      unfold Process.applyReserved
      rw [hvalid]
    rw [happly]
    refine ⟨?_, BackupsKept.refl hp items reserved, ?_⟩
    · unfold perform
      rw [hvalid]
      rfl
    · intro token p' heq
      cases heq
  | none =>
    by_cases hempty : items.isEmpty = true
    · obtain rfl : items = [] := List.isEmpty_iff.mp hempty
      have happly : p.applyReserved host [] reserved = (.ok none, p) := rfl
      rw [happly]
      refine ⟨rfl, BackupsKept.refl hp [] reserved, ?_⟩
      intro token p' _ b _
      rfl
    · rcases Process.applyReserved_prepare host hp reserved hvalid (by simpa using hempty) with
        ⟨failure, p', happly, -, -, hshort⟩ | ⟨own, outer, t₁, t₂, hprep, happly⟩
      · -- the numbers suffice, so neither search fails
        unfold Process.Room at hroom
        omega
      · have ha := hprep.applied host hp hvalid
        -- the items do the same over the hidden backups
        have hhide := applyAll_hide host (items.zipIdx 1)
          (fun item hitem => List.fst_mem_of_mem_zipIdx hitem)
          (avoids_of_not_operand hvalid fun b hb => hprep.not_operand hb)
          { p.kernel with table := t₂ } (hprep.roomy hvalid hroom)
        have hseen : Kernel.hide (backups own ++ backups (flat outer))
            { p.kernel with table := t₂ } = p.seen := by
          unfold Kernel.hide Process.seen
          rw [← hprep.hide_eq]
        rw [hseen] at hhide
        rw [happly]
        unfold Process.carryOut perform
        rw [hvalid]
        dsimp only
        rw [hhide]
        cases hall : applyAll host (items.zipIdx 1) { p.kernel with table := t₂ } with
        | mk result k =>
          rw [hall] at ha
          have hbackups := backups_of_saves ha.saves
          cases result with
          | ok done =>
            refine ⟨?_, ⟨?_, [⟨p.nextToken, own⟩], outer, rfl, by simp, ha.carried⟩, ?_⟩
            · simp only [SameOutcome, Process.seen, Process.visible, hbackups, Kernel.hide]
            · intro b hb
              rw [hbackups] at hb
              exact hprep.fresh hb
            · intro token p' heq b hb
              cases heq
              rw [hbackups] at hb
              exact hprep.not_operand hb
          | error failed =>
            obtain ⟨p₃, hrestore, hunchanged, hsaves, -⟩ := ha.restore_now
            dsimp only at hrestore ⊢
            rw [hrestore]
            refine ⟨rfl, ⟨?_, [], p₃.saves, rfl, by simp, hunchanged.carried⟩, ?_⟩
            · intro b hb
              have hb' : b ∈ backups (flat outer) := by
                rw [← hsaves]
                exact hb
              exact hprep.fresh (List.mem_append_right _ hb')
            · intro token p' heq
              cases heq

/-- Descriptor 3 is the backup of a live save.  `3>&1` moves it, and `1>&6` then fails
since 6 is closed for the user, although 6 is the number the next backup would get. -/
theorem backups_invisible_closed :
    SameOutcome
      ((plainProcess.apply plainHost [closing 5]).2.applyReserved plainHost
        [writingTo 3 1, writingTo 1 6] [])
      (perform plainHost [writingTo 3 1, writingTo 1 6]
        (plainProcess.apply plainHost [closing 5]).2.seen) ∧
    ((plainProcess.apply plainHost [closing 5]).2.applyReserved plainHost
        [writingTo 3 1, writingTo 1 6] []).1
      = .error ⟨"cannot apply redirection", .badf, 2⟩ := by
  have hcoherent : (plainProcess.apply plainHost [closing 5]).2.Coherent := by
    rcases Process.applyReserved_cases plainHost coherent_plainProcess [closing 5] [] with
      ⟨failure, p', happly, hunchanged, -⟩ | happly | ⟨p', own, outer, happly, ha, -⟩
    · unfold Process.apply
      rw [happly]
      exact hunchanged.coherent
    · unfold Process.apply
      rw [happly]
      exact coherent_plainProcess
    · unfold Process.apply
      rw [happly]
      exact ha.coherent
  exact ⟨(backups_invisible plainHost hcoherent [writingTo 3 1, writingTo 1 6] []
    (by unfold Process.Room; decide)).1, by rfl⟩

end Redirect

end CShell
