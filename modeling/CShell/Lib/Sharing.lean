import CShell.Lib.Slots
import Mathlib.Data.Multiset.Count
import Mathlib.Data.Finset.Lattice.Fold

/-!
# Shared cells

A heap of cells that point at each other, in which every cell counts the references to it
beyond the first.  Giving up the last reference frees the cell and gives up what it points
at in turn.  The cells still to be freed are linked through a field of their own, so
freeing needs neither a stack nor more memory.

What is in a cell is a payload, and `kids` says what a payload points at.

## Main definitions

* `Cell`, `Heap` — counted cells, by address.
* `release`, `drain`, `destroy` — giving up references; `none` on a cell that is free.
* `Counted` — every cell has the references that its count says.
* `Sound` — the same for a client that frees nothing at the moment, without a way round.
* `Clean` — what that says of the cells.

## Main results

* `Counted.destroy` — **giving up references that are held never touches a free cell and
  frees exactly what can no longer be reached.**
* `Sound.alloc`, `Sound.update`, `Sound.retain`, `Sound.destroy` — what a client may do.
* `Counted.kept_update` — what others hold does not change under a client.
* `Sound.clean` — **a sound heap is clean.**
-/

/-- A cell, with the number of references beyond the first and the link to the cell that is
freed after it. -/
structure Cell (P : Type*) where
  payload : P
  retained : ℕ := 0
  next : Option ℕ := none

/-- The cells that are allocated, by address. -/
abbrev Heap (limit : ℕ) (P : Type*) := Slots limit (Cell P)

namespace Sharing

open List

variable {limit : ℕ} {P : Type*}

/-! ### Giving up references -/

/-- Give up a reference: one less is counted, or the cell is put in front of those to be
freed. -/
def release (pending : Option ℕ) (h : Heap limit P) (a : ℕ) : Option (Option ℕ × Heap limit P) :=
  match h.get a with
  | none => none
  | some c =>
    if c.retained ≠ 0 then some (pending, h.put a { c with retained := c.retained - 1 })
    else some (some a, h.put a { c with next := pending })

/-- Give up one reference after the other. -/
def releaseAll (pending : Option ℕ) (h : Heap limit P) : List ℕ → Option (Option ℕ × Heap limit P)
  | [] => some (pending, h)
  | a :: as =>
    match release pending h a with
    | none => none
    | some (pending, h) => releaseAll pending h as

/-- Free the cells that are linked, and those that are linked while this is done. -/
def drain (kids : P → List ℕ) : ℕ → Option ℕ → Heap limit P → Option (Heap limit P)
  | _, none, h => some h
  | 0, some _, _ => none
  | fuel + 1, some a, h =>
    match h.get a with
    | none => none
    | some c =>
      match releaseAll c.next h (kids c.payload) with
      | none => none
      | some (pending, h) => drain kids fuel pending (h.clear a)

/-- Give up references and free what is to be freed. -/
def destroy (kids : P → List ℕ) (h : Heap limit P) (rs : List ℕ) : Option (Heap limit P) :=
  match releaseAll none h rs with
  | none => none
  | some (pending, h) => drain kids limit pending h

/-! ### Counting references -/

variable (kids : P → List ℕ)

/-- The references from inside the heap. -/
def inner (h : Heap limit P) (a : ℕ) : ℕ :=
  h.sum fun c => (kids c.payload).count a

/-- All references, of which a client holds the bag `refs`. -/
def owners (h : Heap limit P) (refs : Multiset ℕ) (a : ℕ) : ℕ := refs.count a + inner kids h a

/-- The cells to be freed, in their order. -/
inductive Chain (h : Heap limit P) : Option ℕ → List ℕ → Prop
  | nil : Chain h none []
  | cons {a : ℕ} {c : Cell P} {as : List ℕ} (hget : h.get a = some c) (htail : Chain h c.next as) :
    Chain h (some a) (a :: as)

/-- Every cell has the references that its count says, and those that are to be freed have
none. -/
structure Counted (refs : Multiset ℕ) (pending : Option ℕ) (doomed : List ℕ) (h : Heap limit P) :
    Prop where
  chain : Chain h pending doomed
  nodup : doomed.Nodup
  idle : ∀ a c, a ∈ doomed → h.get a = some c → c.retained = 0 ∧ owners kids h refs a = 0
  held : ∀ a c, a ∉ doomed → h.get a = some c → c.retained + 1 = owners kids h refs a
  live : ∀ a, owners kids h refs a ≠ 0 → h.get a ≠ none

/-- The same cells with the same payloads, but perhaps other counts and links. -/
def Alike (h h' : Heap limit P) : Prop :=
  ∀ a, (h'.get a).map Cell.payload = (h.get a).map Cell.payload

variable {kids} {h h' h'' : Heap limit P} {refs : Multiset ℕ} {pending : Option ℕ} {doomed : List ℕ}

theorem Alike.refl (h : Heap limit P) : Alike h h := fun _ => rfl

theorem Alike.trans (h₁ : Alike h h') (h₂ : Alike h' h'') : Alike h h'' :=
  fun a => (h₂ a).trans (h₁ a)

variable {a : ℕ} {c : Cell P} {refs' : Multiset ℕ}

/-- Writing a count or a link. -/
theorem Alike.put {c c' : Cell P} (hget : h.get a = some c) (hpayload : c'.payload = c.payload) :
    Alike h (h.put a c') := by
  intro b
  rw [Slots.get_put (Slots.lt_of_get hget)]
  split
  · next hb => rw [hb, hget, Option.map_some, Option.map_some, hpayload]
  · rfl

theorem Alike.inner (halike : Alike h h') (a : ℕ) : inner kids h' a = inner kids h a := by
  refine Slots.sum_congr fun p => ?_
  have hp := halike p
  cases hget : h.get p with
  | none =>
    rw [hget] at hp
    rw [Option.map_eq_none_iff.mp hp]
  | some c =>
    rw [hget] at hp
    obtain ⟨c', hget', hpayload⟩ := Option.map_eq_some_iff.mp hp
    rw [hget', Option.elim_some, Option.elim_some, hpayload]

theorem Alike.owners (halike : Alike h h') (a : ℕ) :
    owners kids h' refs a = owners kids h refs a := by
  unfold Sharing.owners
  rw [halike.inner]

theorem Alike.get_ne_none (halike : Alike h h') : h'.get a ≠ none ↔ h.get a ≠ none := by
  refine not_congr ((Option.map_eq_none_iff (f := Cell.payload)).symm.trans ?_)
  rw [halike a, Option.map_eq_none_iff]

/-- What a cell points at is counted. -/
theorem count_le_inner {p : ℕ} (hget : h.get p = some c) (a : ℕ) :
    (kids c.payload).count a ≤ inner kids h a := by
  have hsum := Slots.sum_clear hget fun c => (kids c.payload).count a
  unfold inner
  omega

/-- A reference from inside comes from a cell. -/
theorem exists_of_inner (hinner : inner kids h a ≠ 0) :
    ∃ p c, h.get p = some c ∧ a ∈ kids c.payload := by
  obtain ⟨p, c, hget, hcount⟩ := Slots.exists_of_sum_ne_zero hinner
  exact ⟨p, c, hget, count_pos_iff.mp (Nat.pos_of_ne_zero hcount)⟩

/-- A cell with another payload. -/
theorem inner_put {p : ℕ} {c c' : Cell P} (hget : h.get p = some c) (a : ℕ) :
    inner kids (h.put p c') a + (kids c.payload).count a = inner kids h a + (kids c'.payload).count a := by
  have hsum := Slots.sum_put hget c' fun c => (kids c.payload).count a
  unfold inner
  omega

/-- A cell that is new. -/
theorem inner_put_of_free {p : ℕ} (hfree : h.get p = none) (hlt : p < limit) (a : ℕ) :
    inner kids (h.put p c) a = inner kids h a + (kids c.payload).count a :=
  (Slots.sum_put_of_free hfree hlt c _).trans (Nat.add_comm _ _)

/-- A cell that is freed. -/
theorem inner_clear {p : ℕ} (hget : h.get p = some c) (a : ℕ) :
    inner kids (h.clear p) a + (kids c.payload).count a = inner kids h a :=
  (Nat.add_comm _ _).trans (Slots.sum_clear hget fun c => (kids c.payload).count a)

/-! ### One reference -/

/-- A cell that is not to be freed may change. -/
theorem Chain.congr (hchain : Chain h pending doomed) (hsame : ∀ a ∈ doomed, h'.get a = h.get a) :
    Chain h' pending doomed := by
  induction hchain with
  | nil => exact .nil
  | cons hget _ ih =>
    refine .cons ((hsame _ mem_cons_self).trans hget) (ih fun a ha => hsame a ?_)
    exact mem_cons_of_mem _ ha

theorem owners_cons (r a : ℕ) :
    owners kids h (r ::ₘ refs) a = owners kids h refs a + if a = r then 1 else 0 := by
  unfold owners
  rw [Multiset.count_cons]
  omega

/-- **Giving up a reference that is held** succeeds, and the counts stay right. -/
theorem Counted.release {r : ℕ} (hc : Counted kids (r ::ₘ refs) pending doomed h) :
    ∃ pending' doomed' h', Sharing.release pending h r = some (pending', h') ∧
      Counted kids refs pending' doomed' h' ∧ Alike h h' ∧ ∀ a, a ≠ r → h'.get a = h.get a := by
  have howned : owners kids h (r ::ₘ refs) r = owners kids h refs r + 1 := by
    rw [owners_cons, if_pos rfl]
  have hother : ∀ a, a ≠ r → owners kids h (r ::ₘ refs) a = owners kids h refs a := by
    intro a ha
    rw [owners_cons, if_neg ha, Nat.add_zero]
  obtain ⟨c, hget⟩ := Option.ne_none_iff_exists'.mp (hc.live r (by omega))
  have hkept : r ∉ doomed := by
    intro hmem
    have := (hc.idle r c hmem hget).2
    omega
  have hheld := hc.held r c hkept hget
  have hput : ∀ c' : Cell P, ∀ a, a ≠ r → (h.put r c').get a = h.get a :=
    fun c' a ha => Slots.get_put_of_ne _ ha _
  have hchain : ∀ c' : Cell P, Chain (h.put r c') pending doomed := by
    intro c'
    refine hc.chain.congr fun a ha => hput c' a ?_
    rintro rfl
    exact hkept ha
  unfold Sharing.release
  rw [hget]
  dsimp only
  by_cases hcount : c.retained ≠ 0
  · rw [if_pos hcount]
    have halike : Alike h (h.put r { c with retained := c.retained - 1 }) := .put hget rfl
    refine ⟨pending, doomed, _, rfl, ⟨hchain _, hc.nodup, ?_, ?_, ?_⟩, halike, hput _⟩
    · intro a c' ha hget'
      have hne : a ≠ r := by
        rintro rfl
        exact hkept ha
      rw [hput _ a hne] at hget'
      rw [halike.owners, ← hother a hne]
      exact hc.idle a c' ha hget'
    · intro a c' ha hget'
      rw [halike.owners]
      by_cases hne : a = r
      · subst hne
        rw [Slots.get_put_self (Slots.lt_of_get hget)] at hget'
        cases hget'
        dsimp only
        omega
      · rw [hput _ a hne] at hget'
        rw [← hother a hne]
        exact hc.held a c' ha hget'
    · intro a ha
      rw [halike.owners] at ha
      rw [halike.get_ne_none]
      exact hc.live a (by rw [owners_cons]; omega)
  · -- the last reference: the cell joins those to be freed
    rw [if_neg hcount]
    have halike : Alike h (h.put r { c with next := pending }) := .put hget rfl
    refine ⟨some r, r :: doomed, _, rfl, ⟨.cons (Slots.get_put_self (Slots.lt_of_get hget) _) (hchain _),
      nodup_cons.mpr ⟨hkept, hc.nodup⟩, ?_, ?_, ?_⟩, halike, hput _⟩
    · intro a c' ha hget'
      rw [halike.owners]
      by_cases hne : a = r
      · subst hne
        rw [Slots.get_put_self (Slots.lt_of_get hget)] at hget'
        cases hget'
        dsimp only
        omega
      · rw [hput _ a hne] at hget'
        rw [← hother a hne]
        exact hc.idle a c' (mem_of_ne_of_mem hne ha) hget'
    · intro a c' ha hget'
      have hne : a ≠ r := ne_of_not_mem_cons ha
      rw [hput _ a hne] at hget'
      rw [halike.owners, ← hother a hne]
      exact hc.held a c' (not_mem_of_not_mem_cons ha) hget'
    · intro a ha
      rw [halike.owners] at ha
      rw [halike.get_ne_none]
      exact hc.live a (by rw [owners_cons]; omega)

/-- A cell that is not touched may be free as well. -/
theorem release_clear {r a : ℕ} {pending' : Option ℕ} (hne : r ≠ a)
    (hrelease : release pending (h.clear a) r = some (pending', h')) :
    ∃ h'', release pending h r = some (pending', h'') ∧ h' = h''.clear a ∧ h''.get a = h.get a := by
  have hget : (h.clear a).get r = h.get r := by rw [Slots.get_clear, if_neg hne]
  unfold release at hrelease ⊢
  rw [hget] at hrelease
  split at hrelease
  · cases hrelease
  · next c hc =>
    have hput : ∀ c' : Cell P, (h.clear a).put r c' = (h.put r c').clear a :=
      fun c' => (Slots.clear_put_comm h hne.symm c').symm
    split at hrelease
    · cases hrelease
      exact ⟨_, if_pos ‹_›, hput _, Slots.get_put_of_ne _ hne.symm _⟩
    · cases hrelease
      exact ⟨_, if_neg ‹_›, hput _, Slots.get_put_of_ne _ hne.symm _⟩

/-- The references of a cell are given up while the cell is still there. -/
theorem Counted.releaseAll {rs : List ℕ} :
    ∀ {pending : Option ℕ} {doomed : List ℕ} {h : Heap limit P},
      Counted kids (rs + refs) pending doomed (h.clear a) →
      ∃ pending' doomed' h', Sharing.releaseAll pending h rs = some (pending', h') ∧
        Counted kids refs pending' doomed' (h'.clear a) ∧ Alike h h' := by
  induction rs with
  | nil =>
    intro pending doomed h hc
    rw [Multiset.coe_nil, zero_add] at hc
    exact ⟨pending, doomed, h, rfl, hc, .refl h⟩
  | cons r rs ih =>
    intro pending doomed h hc
    rw [← Multiset.cons_coe, Multiset.cons_add] at hc
    have hne : r ≠ a := by
      rintro rfl
      refine hc.live r ?_ (by rw [Slots.get_clear, if_pos rfl])
      rw [owners_cons, if_pos rfl]
      omega
    obtain ⟨pending₁, doomed₁, h₁, hrelease, hc₁, halike, -⟩ := hc.release
    obtain ⟨h₂, hrelease', rfl, hsame⟩ := release_clear hne hrelease
    obtain ⟨pending', doomed', h', hrest, hc', halike'⟩ := ih hc₁
    refine ⟨pending', doomed', h', ?_, hc', Alike.trans ?_ halike'⟩
    · rw [Sharing.releaseAll, hrelease']
      exact hrest
    · intro b
      by_cases hb : b = a
      · rw [hb, hsame]
      · have hcell := halike b
        rw [Slots.get_clear, Slots.get_clear, if_neg hb, if_neg hb] at hcell
        exact hcell

/-! ### Freeing -/

/-- How many cells there are. -/
def population (h : Heap limit P) : ℕ := ((Finset.range limit).filter fun a => h.get a ≠ none).card

theorem population_le (h : Heap limit P) : population h ≤ limit :=
  (Finset.card_filter_le _ _).trans (Finset.card_range limit).le

theorem Alike.population (halike : Alike h h') : population h' = population h :=
  congrArg Finset.card (Finset.filter_congr fun _ _ => halike.get_ne_none)

theorem population_clear (hget : h.get a ≠ none) : population (h.clear a) < population h := by
  refine Finset.card_lt_card (Finset.ssubset_iff_subset_ne.mpr ⟨?_, fun heq => ?_⟩)
  · intro b hb
    rw [Finset.mem_filter, Slots.get_clear] at hb
    rw [Finset.mem_filter]
    refine ⟨hb.1, fun hnone => hb.2 ?_⟩
    rw [hnone, ite_self]
  · have hmem : a ∈ (Finset.range limit).filter fun a => h.get a ≠ none := by
      obtain ⟨c, hc⟩ := Option.ne_none_iff_exists'.mp hget
      exact Finset.mem_filter.mpr ⟨Finset.mem_range.mpr (Slots.lt_of_get hc), hget⟩
    rw [← heq, Finset.mem_filter, Slots.get_clear, if_pos rfl] at hmem
    exact hmem.2 rfl

/-- The cells of `h'` are among those of `h`. -/
def Subheap (h' h : Heap limit P) : Prop :=
  ∀ a c', h'.get a = some c' → ∃ c, h.get a = some c ∧ c.payload = c'.payload

theorem Alike.subheap (halike : Alike h h') : Subheap h' h := by
  intro a c' hget
  have ha := halike a
  rw [hget, Option.map_some] at ha
  exact Option.map_eq_some_iff.mp ha.symm

theorem Subheap.trans (h₁ : Subheap h'' h') (h₂ : Subheap h' h) : Subheap h'' h := by
  intro a c'' hget
  obtain ⟨c', hget', hpayload⟩ := h₁ a c'' hget
  obtain ⟨c, hget, hpayload'⟩ := h₂ a c' hget'
  exact ⟨c, hget, hpayload'.trans hpayload⟩

theorem Subheap.of_clear (h : Heap limit P) (a : ℕ) : Subheap (h.clear a) h := by
  intro b c hget
  rw [Slots.get_clear] at hget
  split at hget
  · cases hget
  · exact ⟨c, hget, rfl⟩

/-- The first of the cells to be freed is taken out, and what it points at is held instead. -/
theorem Counted.pop (hc : Counted kids refs (some a) doomed h)
    (hget : h.get a = some c) : ∃ doomed', doomed = a :: doomed' ∧
      Counted kids (kids c.payload + refs) c.next doomed' (h.clear a) := by
  cases hc.chain with
  | cons hget' htail =>
    rename_i c' doomed'
    rw [hget] at hget'
    cases hget'
    obtain ⟨hnot, hnodup⟩ := nodup_cons.mp hc.nodup
    have howners : ∀ b, owners kids (h.clear a) (kids c.payload + refs) b = owners kids h refs b := by
      intro b
      unfold owners
      rw [Multiset.count_add, Multiset.coe_count, ← inner_clear hget b]
      omega
    have hcell : ∀ b, b ≠ a → (h.clear a).get b = h.get b := by
      intro b hb
      rw [Slots.get_clear, if_neg hb]
    refine ⟨doomed', rfl, ?_, hnodup, ?_, ?_, ?_⟩
    · refine htail.congr fun b hb => hcell b ?_
      rintro rfl
      exact hnot hb
    · intro b c' hb hget'
      rw [Slots.get_clear] at hget'
      split at hget'
      · cases hget'
      · rw [howners]
        exact hc.idle b c' (mem_cons_of_mem _ hb) hget'
    · intro b c' hb hget'
      rw [Slots.get_clear] at hget'
      split at hget'
      · cases hget'
      · next hne =>
        rw [howners]
        refine hc.held b c' ?_ hget'
        rw [mem_cons, not_or]
        exact ⟨hne, hb⟩
    · intro b hb
      rw [howners] at hb
      have hne : b ≠ a := by
        rintro rfl
        exact hb (hc.idle b c mem_cons_self hget).2
      rw [hcell b hne]
      exact hc.live b hb

/-- Everything that is to be freed is freed, and what was to be freed after it. -/
theorem Counted.drain {fuel : ℕ} :
    ∀ {pending : Option ℕ} {doomed : List ℕ} {h : Heap limit P}, Counted kids refs pending doomed h →
      population h ≤ fuel → ∃ h', Sharing.drain kids fuel pending h = some h' ∧
        Counted kids refs none [] h' ∧ Subheap h' h := by
  induction fuel with
  | zero =>
    intro pending doomed h hc hfuel
    cases pending with
    | none =>
      cases hc.chain
      exact ⟨h, rfl, hc, (Alike.refl h).subheap⟩
    | some a =>
      cases hc.chain with
      | cons hget _ =>
        have hlt := population_clear (h := h) (by rw [hget]; exact Option.some_ne_none _)
        omega
  | succ fuel ih =>
    intro pending doomed h hc hfuel
    cases pending with
    | none =>
      cases hc.chain
      exact ⟨h, rfl, hc, (Alike.refl h).subheap⟩
    | some a =>
      obtain ⟨c, hget⟩ : ∃ c, h.get a = some c := by
        cases hc.chain with
        | cons hget _ => exact ⟨_, hget⟩
      obtain ⟨doomed', -, hpopped⟩ := hc.pop hget
      obtain ⟨pending', doomed'', h₁, hreleased, hc₁, halike⟩ := hpopped.releaseAll
      have hlive : h₁.get a ≠ none := by
        rw [halike.get_ne_none, hget]
        exact Option.some_ne_none _
      have hless := population_clear hlive
      rw [halike.population] at hless
      obtain ⟨h', hdrained, hc', hsub⟩ := ih hc₁ (by omega)
      refine ⟨h', ?_, hc', hsub.trans ((Subheap.of_clear h₁ a).trans halike.subheap)⟩
      rw [Sharing.drain, hget]
      dsimp only
      rw [hreleased]
      exact hdrained

/-! ### Reaching -/

variable (kids) in
/-- A cell that a client gets to from the references it holds. -/
inductive Reach (h : Heap limit P) (refs : Multiset ℕ) : ℕ → Prop
  | root {a : ℕ} (hmem : a ∈ refs) : Reach h refs a
  | kid {p a : ℕ} {c : Cell P} (hreach : Reach h refs p) (hget : h.get p = some c)
      (hmem : a ∈ kids c.payload) : Reach h refs a

variable (kids) in
/-- There is no way round in a heap. -/
def Ranked (h : Heap limit P) : Prop :=
  ∃ rank : ℕ → ℕ, ∀ p c, h.get p = some c → ∀ a ∈ kids c.payload, rank a < rank p

theorem Ranked.subheap (hranked : Ranked kids h) (hsub : Subheap h' h) : Ranked kids h' := by
  obtain ⟨rank, hrank⟩ := hranked
  refine ⟨rank, fun p c' hget a ha => ?_⟩
  obtain ⟨c, hget, hpayload⟩ := hsub p c' hget
  rw [← hpayload] at ha
  exact hrank p c hget a ha

/-- **Nothing leaks**: what is allocated can be reached. -/
theorem Counted.reach (hc : Counted kids refs none [] h) (hranked : Ranked kids h)
    (hlive : h.get a ≠ none) : Reach kids h refs a := by
  obtain ⟨rank, hrank⟩ := hranked
  -- going from a cell to one that points at it ends, as ranks are bounded
  have hbounded : ∀ b c, h.get b = some c → rank b ≤ (Finset.range limit).sup rank :=
    fun b c hget => Finset.le_sup (f := rank) (Finset.mem_range.mpr (Slots.lt_of_get hget))
  generalize (Finset.range limit).sup rank = bound at hbounded
  induction hn : bound - rank a using Nat.strong_induction_on generalizing a with
  | _ n ih =>
    obtain ⟨c, hget⟩ := Option.ne_none_iff_exists'.mp hlive
    have hheld := hc.held a c not_mem_nil hget
    by_cases hroot : a ∈ refs
    · exact .root hroot
    · have hinner : inner kids h a ≠ 0 := by
        unfold owners at hheld
        rw [Multiset.count_eq_zero_of_notMem hroot] at hheld
        omega
      obtain ⟨p, c', hget', hmem⟩ := exists_of_inner hinner
      have hup := hrank p c' hget' a hmem
      have hle := hbounded p c' hget'
      refine .kid (ih (bound - rank p) (by omega) ?_ rfl) hget' hmem
      rw [hget']
      exact Option.some_ne_none _

theorem Counted.live_of_reach (hc : Counted kids refs pending doomed h)
    (hreach : Reach kids h refs a) : h.get a ≠ none := by
  refine hc.live a ?_
  unfold owners
  cases hreach with
  | root hmem =>
    have := Multiset.count_pos.mpr hmem
    omega
  | kid _ hget hmem =>
    have hle : _ ≤ inner kids h a := count_le_inner hget a
    have := count_pos_iff.mpr hmem
    omega

/-- What is left of a heap can be reached if it could be reached before. -/
theorem Reach.subheap (hc : Counted kids refs pending doomed h') (hsub : Subheap h' h) :
    Reach kids h' refs a ↔ Reach kids h refs a := by
  constructor
  · intro hreach
    induction hreach with
    | root hmem => exact .root hmem
    | kid _ hget hmem ih =>
      obtain ⟨c, hget, hpayload⟩ := hsub _ _ hget
      rw [← hpayload] at hmem
      exact .kid ih hget hmem
  · intro hreach
    induction hreach with
    | root hmem => exact .root hmem
    | kid _ hget hmem ih =>
      obtain ⟨c', hget'⟩ := Option.ne_none_iff_exists'.mp (hc.live_of_reach ih)
      obtain ⟨c, hget₂, hpayload⟩ := hsub _ _ hget'
      rw [hget] at hget₂
      cases hget₂
      rw [hpayload] at hmem
      exact .kid ih hget' hmem

/-- **Giving up references that are held never touches a free cell and frees exactly what
can no longer be reached**; what is left is as it was. -/
theorem Counted.destroy {rs : List ℕ} (hc : Counted kids (rs + refs) none [] h) (hranked : Ranked kids h) :
    ∃ h', Sharing.destroy kids h rs = some h' ∧ Counted kids refs none [] h' ∧ Subheap h' h ∧
      ∀ a, h'.get a ≠ none ↔ Reach kids h refs a := by
  -- no cell is being freed, which is to say one beyond the limit
  have hbeyond : ∀ h : Heap limit P, h.clear limit = h :=
    fun h => Slots.clear_of_get (h.closed limit le_rfl)
  rw [← hbeyond h] at hc
  obtain ⟨pending, doomed, h₁, hreleased, hc₁, halike⟩ := hc.releaseAll
  rw [hbeyond] at hc₁
  obtain ⟨h', hdrained, hc', hsub⟩ := hc₁.drain (population_le h₁)
  have hsub' : Subheap h' h := hsub.trans halike.subheap
  refine ⟨h', ?_, hc', hsub', fun a => ?_⟩
  · unfold Sharing.destroy
    rw [hreleased]
    exact hdrained
  · rw [← Reach.subheap hc' hsub']
    exact ⟨hc'.reach (hranked.subheap hsub'), hc'.live_of_reach⟩

theorem Reach.mono (hle : refs ≤ refs') (hreach : Reach kids h refs a) :
    Reach kids h refs' a := by
  induction hreach with
  | root hmem => exact .root (Multiset.mem_of_le hle hmem)
  | kid _ hget hmem ih => exact .kid ih hget hmem

/-! ### What does not change -/

variable (kids) in
/-- What the references lead to is still there, with the same payloads. -/
def Kept (refs : Multiset ℕ) (h h' : Heap limit P) : Prop :=
  ∀ a, Reach kids h refs a → ∃ c c', h.get a = some c ∧ h'.get a = some c' ∧ c'.payload = c.payload

theorem Kept.mono (hkept : Kept kids refs' h h') (hle : refs ≤ refs') :
    Kept kids refs h h' :=
  fun a hreach => hkept a (hreach.mono hle)

/-- The references lead to the same cells. -/
theorem Kept.reach (hkept : Kept kids refs h h') (hreach : Reach kids h refs a) :
    Reach kids h' refs a := by
  induction hreach with
  | root hmem => exact .root hmem
  | kid hp hget hmem ih =>
    obtain ⟨c, c', hget', hget'', hpayload⟩ := hkept _ hp
    rw [hget] at hget'
    cases hget'
    rw [← hpayload] at hmem
    exact .kid ih hget'' hmem

theorem Kept.trans (h₁ : Kept kids refs h h') (h₂ : Kept kids refs h' h'') : Kept kids refs h h'' := by
  intro a hreach
  obtain ⟨c, c', hget, hget', hpayload⟩ := h₁ a hreach
  obtain ⟨c₁, c₂, hget₁, hget₂, hpayload'⟩ := h₂ a (h₁.reach hreach)
  rw [hget'] at hget₁
  cases hget₁
  exact ⟨c, c₂, hget, hget₂, hpayload'.trans hpayload⟩

theorem Counted.kept_refl (hc : Counted kids refs pending doomed h) : Kept kids refs h h := by
  intro a hreach
  obtain ⟨c, hget⟩ := Option.ne_none_iff_exists'.mp (hc.live_of_reach hreach)
  exact ⟨c, c, hget, hget, rfl⟩

theorem Counted.kept_alike (hc : Counted kids refs pending doomed h) (halike : Alike h h') :
    Kept kids refs h h' := by
  intro a hreach
  obtain ⟨c', hget'⟩ := Option.ne_none_iff_exists'.mp
    (halike.get_ne_none.mpr (hc.live_of_reach hreach))
  obtain ⟨c, hget, hpayload⟩ := halike.subheap a c' hget'
  exact ⟨c, c', hget, hget', hpayload.symm⟩

/-- A part of the heap from which nothing is missing that is held. -/
theorem Subheap.kept (hsub : Subheap h' h) (hlive : ∀ a, Reach kids h refs a → h'.get a ≠ none) :
    Kept kids refs h h' := by
  intro a hreach
  obtain ⟨c', hget'⟩ := Option.ne_none_iff_exists'.mp (hlive a hreach)
  obtain ⟨c, hget, hpayload⟩ := hsub a c' hget'
  exact ⟨c, c', hget, hget', hpayload.symm⟩

/-- A new cell. -/
theorem Counted.kept_alloc (hc : Counted kids refs pending doomed h)
    (hfree : h.get a = none) : Kept kids refs h (h.put a c) := by
  intro b hreach
  obtain ⟨c', hget⟩ := Option.ne_none_iff_exists'.mp (hc.live_of_reach hreach)
  have hne : b ≠ a := by
    rintro rfl
    rw [hfree] at hget
    cases hget
  refine ⟨c', c', hget, ?_, rfl⟩
  rw [Slots.get_put_of_ne _ hne]
  exact hget

/-- A cell that is held once, and not by these references, is not among what they lead to. -/
theorem Counted.kept_update {own : Multiset ℕ} (hc : Counted kids (own + refs) none [] h)
    {c c' : Cell P} (hget : h.get a = some c) (hheld : a ∈ own) (hsole : c.retained = 0) :
    Kept kids refs h (h.put a c') := by
  intro b hreach
  have hne : b ≠ a := by
    rintro rfl
    have howners := hc.held b c not_mem_nil hget
    unfold owners at howners
    rw [Multiset.count_add] at howners
    have hown := Multiset.count_pos.mpr hheld
    cases hreach with
    | root hmem =>
      have := Multiset.count_pos.mpr hmem
      omega
    | kid _ hget' hmem =>
      have hle : _ ≤ inner kids h b := count_le_inner hget' b
      have := count_pos_iff.mpr hmem
      omega
  obtain ⟨c₁, hget₁⟩ := Option.ne_none_iff_exists'.mp
    (hc.live_of_reach (hreach.mono (Multiset.le_add_left refs own)))
  refine ⟨c₁, c₁, hget₁, ?_, rfl⟩
  rw [Slots.get_put_of_ne _ hne]
  exact hget₁

/-! ### What a client may do

It allocates cells that point at nothing, gives up what it holds, and changes cells that it
holds and nobody else does, moving references between its own and those of the cell. -/

variable (kids) in
/-- The invariant of a heap and the references into it. -/
structure Sound (h : Heap limit P) (refs : Multiset ℕ) : Prop where
  counted : Counted kids refs none [] h
  ranked : Ranked kids h

theorem Sound.empty : Sound kids (Slots.empty : Heap limit P) 0 where
  counted := {
    chain := .nil
    nodup := nodup_nil
    idle := fun _ _ ha => by cases ha
    held := fun _ _ _ hget => by cases hget
    live := fun a ha => absurd (Slots.sum_empty _) (by simpa [owners, inner] using ha) }
  ranked := ⟨fun _ => 0, fun _ _ hget => by cases hget⟩

/-- With nothing to be freed, two conditions are left. -/
theorem Counted.of_held (hheld : ∀ a c, h.get a = some c → c.retained + 1 = owners kids h refs a)
    (hlive : ∀ a, owners kids h refs a ≠ 0 → h.get a ≠ none) : Counted kids refs none [] h where
  chain := .nil
  nodup := nodup_nil
  idle := fun _ _ ha => by cases ha
  held := fun a c _ => hheld a c
  live := hlive

theorem Sound.alloc {payload : P} (hs : Sound kids h refs) (hfree : h.get a = none)
    (hlt : a < limit) (hleaf : kids payload = []) : Sound kids (h.put a { payload }) (a ::ₘ refs) := by
  have hunowned : owners kids h refs a = 0 := by
    by_contra hne
    exact hs.counted.live a hne hfree
  have howners : ∀ b, owners kids (h.put a { payload }) (a ::ₘ refs) b =
      owners kids h refs b + if b = a then 1 else 0 := by
    intro b
    rw [owners_cons]
    unfold owners
    rw [inner_put_of_free hfree hlt, hleaf, count_nil, Nat.add_zero]
  refine ⟨.of_held ?_ ?_, ?_⟩
  · intro b c hget
    rw [howners]
    by_cases hb : b = a
    · subst hb
      rw [Slots.get_put_self hlt] at hget
      cases hget
      rw [hunowned, if_pos rfl]
    · rw [Slots.get_put_of_ne _ hb] at hget
      rw [if_neg hb]
      exact hs.counted.held b c not_mem_nil hget
  · intro b hb
    rw [howners] at hb
    by_cases hba : b = a
    · rw [hba, Slots.get_put_self hlt]
      exact Option.some_ne_none _
    · rw [if_neg hba] at hb
      rw [Slots.get_put_of_ne _ hba]
      exact hs.counted.live b hb
  · obtain ⟨rank, hrank⟩ := hs.ranked
    refine ⟨rank, fun p c hget b hb => ?_⟩
    rw [Slots.get_put hlt] at hget
    split at hget
    · cases hget
      rw [hleaf] at hb
      cases hb
    · exact hrank p c hget b hb

/-- A cell with one owner that the client holds is pointed at by no cell. -/
theorem Counted.inner_eq_zero (hc : Counted kids refs none [] h)
    (hget : h.get a = some c) (hmem : a ∈ refs) (hsole : c.retained = 0) : inner kids h a = 0 := by
  have hheld := hc.held a c not_mem_nil hget
  unfold owners at hheld
  have := Multiset.count_pos.mpr hmem
  omega

theorem Sound.update {payload : P} (hs : Sound kids h refs)
    (hget : h.get a = some c) (hheld : a ∈ refs) (hsole : c.retained = 0)
    (hmoved : (kids payload : Multiset ℕ) + refs' = kids c.payload + refs)
    (hother : a ∉ kids payload) : Sound kids (h.put a { c with payload }) refs' := by
  have hlt := Slots.lt_of_get hget
  have howners : ∀ b, owners kids (h.put a { c with payload }) refs' b = owners kids h refs b := by
    intro b
    have hinner : inner kids (h.put a { c with payload }) b + (kids c.payload).count b =
        inner kids h b + (kids payload).count b := inner_put hget b
    have hcount := congrArg (Multiset.count b) hmoved
    rw [Multiset.count_add, Multiset.count_add, Multiset.coe_count, Multiset.coe_count] at hcount
    unfold owners
    omega
  refine ⟨.of_held ?_ ?_, ?_⟩
  · intro b c' hget'
    rw [howners]
    by_cases hb : b = a
    · subst hb
      rw [Slots.get_put_self hlt] at hget'
      cases hget'
      exact hs.counted.held b c not_mem_nil hget
    · rw [Slots.get_put_of_ne _ hb] at hget'
      exact hs.counted.held b c' not_mem_nil hget'
  · intro b hb
    rw [howners] at hb
    by_cases hba : b = a
    · rw [hba, Slots.get_put_self hlt]
      exact Option.some_ne_none _
    · rw [Slots.get_put_of_ne _ hba]
      exact hs.counted.live b hb
  · -- nothing points at the cell, so it may be raised above all that it points at
    have hroot := hs.counted.inner_eq_zero hget hheld hsole
    obtain ⟨rank, hrank⟩ := hs.ranked
    refine ⟨fun b => if b = a then (kids payload).foldr (fun k m => max (rank k) m) 0 + 1 else rank b, ?_⟩
    intro p c' hget' b hb
    have hbelow : ∀ ks : List ℕ, ∀ k ∈ ks, rank k ≤ ks.foldr (fun k m => max (rank k) m) 0 := by
      intro ks
      induction ks with
      | nil => exact fun _ hk => by cases hk
      | cons k' ks ih =>
        intro k hk
        rcases mem_cons.mp hk with rfl | hk
        · exact Nat.le_max_left _ _
        · exact (ih k hk).trans (Nat.le_max_right _ _)
    by_cases hp : p = a
    · subst hp
      rw [Slots.get_put_self hlt] at hget'
      cases hget'
      have hne : b ≠ p := fun heq => hother (heq ▸ hb)
      dsimp only
      rw [if_pos rfl, if_neg hne]
      exact Nat.lt_succ_of_le (hbelow _ b hb)
    · rw [Slots.get_put_of_ne _ hp] at hget'
      have hne : b ≠ a := by
        rintro rfl
        have hle : _ ≤ inner kids h b := count_le_inner hget' b
        have := count_pos_iff.mpr hb
        omega
      dsimp only
      rw [if_neg hp, if_neg hne]
      exact hrank p c' hget' b hb

theorem Sound.retain (hs : Sound kids h refs) (hget : h.get a = some c) :
    Sound kids (h.put a { c with retained := c.retained + 1 }) (a ::ₘ refs) := by
  have hlt := Slots.lt_of_get hget
  have halike : Alike h (h.put a { c with retained := c.retained + 1 }) := .put hget rfl
  refine ⟨.of_held ?_ ?_, hs.ranked.subheap halike.subheap⟩
  · intro b c' hget'
    rw [halike.owners, owners_cons]
    by_cases hb : b = a
    · subst hb
      rw [Slots.get_put_self hlt] at hget'
      cases hget'
      have := hs.counted.held b c not_mem_nil hget
      dsimp only at this ⊢
      rw [if_pos rfl]
      omega
    · rw [Slots.get_put_of_ne _ hb] at hget'
      rw [if_neg hb]
      exact hs.counted.held b c' not_mem_nil hget'
  · intro b hb
    rw [halike.owners, owners_cons] at hb
    rw [halike.get_ne_none]
    by_cases hba : b = a
    · rw [hba, hget]
      exact Option.some_ne_none _
    · rw [if_neg hba] at hb
      exact hs.counted.live b hb

theorem Sound.destroy {rs : List ℕ} (hs : Sound kids h (rs + refs)) :
    ∃ h', Sharing.destroy kids h rs = some h' ∧ Sound kids h' refs ∧ Kept kids refs h h' := by
  obtain ⟨h', hfreed, hc, hsub, hlive⟩ := hs.counted.destroy hs.ranked
  exact ⟨h', hfreed, ⟨hc, hs.ranked.subheap hsub⟩, hsub.kept fun a hreach => (hlive a).mpr hreach⟩

/-! ### What is left -/

variable (kids) in
/-- Exactly what can be reached is allocated, all owners are counted, and no cell leads to
itself. -/
structure Clean (h : Heap limit P) (refs : Multiset ℕ) : Prop where
  live : ∀ a, h.get a ≠ none ↔ Reach kids h refs a
  counts : ∀ a c, h.get a = some c → c.retained + 1 = owners kids h refs a
  acyclic : ∀ a c, h.get a = some c → ∀ k ∈ kids c.payload, ¬Reach kids h {k} a

theorem Sound.clean (hs : Sound kids h refs) : Clean kids h refs where
  live := fun _ => ⟨hs.counted.reach hs.ranked, hs.counted.live_of_reach⟩
  counts := fun a c => hs.counted.held a c not_mem_nil
  acyclic := by
    intro a c hget k hk hreach
    obtain ⟨rank, hrank⟩ := hs.ranked
    have hbelow : ∀ b, Reach kids h {k} b → rank b ≤ rank k := by
      intro b hb
      induction hb with
      | root hmem => rw [Multiset.mem_singleton.mp hmem]
      | kid _ hget hmem ih => exact (hrank _ _ hget _ hmem).le.trans ih
    exact absurd ((hbelow a hreach).trans_lt (hrank a c hget k hk)) (lt_irrefl _)

end Sharing
