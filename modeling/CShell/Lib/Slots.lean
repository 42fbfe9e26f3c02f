import Mathlib.Algebra.BigOperators.Group.Finset.Basic
import Mathlib.Data.Finset.Card
import Mathlib.Data.Finset.Range

/-!
# Tables of numbered slots

A table of the numbers below a limit, each free or holding a value, from which the
lowest free number is taken.  Nothing here knows what the slots hold.

## Main definitions

* `Slots limit α` — the table; numbers from the limit on are free for good.
* `Slots.put`, `Slots.clear` — fill and free a slot.
* `Slots.firstFree t least` — the lowest free number from `least` on.
* `Slots.hide hidden t` — the table without the slots in a list.

## Main results

* `Slots.firstFree_eq_some` — what the lowest free number is.
* `Slots.clear_put` — filling a free slot and freeing it again changes nothing.
* `Slots.hide_put`, `Slots.hide_clear` — hidden slots do not take part.
-/

/-- A table of slots, the free ones `none`. -/
@[ext]
structure Slots (limit : ℕ) (α : Type*) where
  get : ℕ → Option α
  closed : ∀ n, limit ≤ n → get n = none

namespace Slots

variable {limit : ℕ} {α : Type*}

variable {n : ℕ} {t : Slots limit α}

theorem lt_of_get {a : α} (h : t.get n = some a) : n < limit := by
  by_contra hn
  rw [t.closed n (not_lt.mp hn)] at h
  cases h

/-! ### Filling and freeing -/

/-- No slot is filled. -/
def empty : Slots limit α := ⟨fun _ => none, fun _ _ => rfl⟩

/-- Fill a slot; a number beyond the limit cannot be filled. -/
def put (t : Slots limit α) (n : ℕ) (a : α) : Slots limit α where
  get m := if m = n ∧ n < limit then some a else t.get m
  closed m hm := by
    have hne : ¬(m = n ∧ n < limit) := by omega
    rw [if_neg hne, t.closed m hm]

/-- Free a slot. -/
def clear (t : Slots limit α) (n : ℕ) : Slots limit α where
  get m := if m = n then none else t.get m
  closed m hm := by
    split
    · rfl
    · exact t.closed m hm

theorem get_put (hn : n < limit) (a : α) (m : ℕ) :
    (t.put n a).get m = if m = n then some a else t.get m := by
  simp [put, hn]

theorem get_put_self (hn : n < limit) (a : α) :
    (t.put n a).get n = some a := by
  rw [get_put hn, if_pos rfl]

theorem get_put_of_ne (t : Slots limit α) {n m : ℕ} (h : m ≠ n) (a : α) :
    (t.put n a).get m = t.get m := by
  simp [put, h]

@[simp] theorem get_clear (t : Slots limit α) (n m : ℕ) :
    (t.clear n).get m = if m = n then none else t.get m := rfl

theorem clear_of_get (h : t.get n = none) : t.clear n = t := by
  ext1
  funext m
  rw [get_clear]
  split
  · next hm => rw [hm, h]
  · rfl

/-- **Filling a free slot and freeing it again changes nothing.** -/
theorem clear_put (h : t.get n = none) (a : α) :
    (t.put n a).clear n = t := by
  ext1
  funext m
  rw [get_clear]
  split
  · next hm => rw [hm, h]
  · next hm => rw [get_put_of_ne t hm]

theorem put_put (t : Slots limit α) (n : ℕ) (a b : α) : (t.put n a).put n b = t.put n b := by
  ext1
  funext m
  simp only [put]
  split <;> simp_all

/-- Filling a slot that is freed first. -/
theorem put_clear (t : Slots limit α) (n : ℕ) (a : α) : (t.clear n).put n a = t.put n a := by
  ext1
  funext m
  simp only [put, clear]
  by_cases hm : m = n
  · by_cases hn : n < limit
    · simp [hm, hn]
    · simp [hm, hn, t.closed n (not_lt.mp hn)]
  · simp [hm]

theorem put_of_get {a : α} (h : t.get n = some a) : t.put n a = t := by
  ext1
  funext m
  rw [get_put (lt_of_get h)]
  split
  · next hm => rw [hm, h]
  · rfl

theorem put_comm (t : Slots limit α) {n m : ℕ} (h : n ≠ m) (a b : α) :
    (t.put n a).put m b = (t.put m b).put n a := by
  ext1
  funext k
  simp only [put]
  by_cases hn : k = n
  · have hm : ¬(k = m ∧ m < limit) := fun hkm => h (hn.symm.trans hkm.1)
    rw [if_neg hm, if_neg hm]
  · have hn' : ¬(k = n ∧ n < limit) := fun hkn => hn hkn.1
    rw [if_neg hn', if_neg hn']

theorem clear_put_comm (t : Slots limit α) {n m : ℕ} (h : n ≠ m) (a : α) :
    (t.put m a).clear n = (t.clear n).put m a := by
  ext1
  funext k
  simp only [put, clear]
  by_cases hk : k = n
  · have hm : ¬(k = m ∧ m < limit) := fun hkm => h (hk.symm.trans hkm.1)
    rw [if_pos hk, if_neg hm, if_pos hk]
  · rw [if_neg hk, if_neg hk]

/-! ### The lowest free number -/

/-- The lowest free number from `least` on. -/
def firstFree (t : Slots limit α) (least : ℕ) : Option ℕ :=
  (List.range limit).find? fun n => decide (least ≤ n) && (t.get n).isNone

theorem firstFree_eq_some {least n : ℕ} (h : t.firstFree least = some n) :
    least ≤ n ∧ n < limit ∧ t.get n = none ∧ ∀ m, least ≤ m → m < n → t.get m ≠ none := by
  obtain ⟨hp, hmem, hmin⟩ := List.find?_range_eq_some.mp h
  simp only [Bool.and_eq_true, decide_eq_true_eq, Option.isNone_iff_eq_none] at hp
  refine ⟨hp.1, by simpa using hmem, hp.2, fun m hm hlt hfree => ?_⟩
  have hno := hmin m hlt
  simp [hm, hfree] at hno

theorem firstFree_eq_none {least : ℕ} (h : t.firstFree least = none)
    (hle : least ≤ n) (hlt : n < limit) : t.get n ≠ none := by
  intro hfree
  have hno := (List.find?_range_eq_none.mp h) n hlt
  simp [hle, hfree] at hno

/-- A free number bounds the lowest one. -/
theorem exists_firstFree {least n : ℕ} (hle : least ≤ n) (hlt : n < limit)
    (hfree : t.get n = none) : ∃ m, t.firstFree least = some m ∧ m ≤ n := by
  cases h : t.firstFree least with
  | none => exact absurd hfree (firstFree_eq_none h hle hlt)
  | some m =>
    refine ⟨m, rfl, ?_⟩
    by_contra hnm
    exact (firstFree_eq_some h).2.2.2 n hle (not_le.mp hnm) hfree

/-! ### Hidden slots -/

/-- The table without the slots of a list. -/
def hide (hidden : List ℕ) (t : Slots limit α) : Slots limit α where
  get n := if n ∈ hidden then none else t.get n
  closed n hn := by
    split
    · rfl
    · exact t.closed n hn

theorem get_hide (hidden : List ℕ) (t : Slots limit α) (n : ℕ) :
    (t.hide hidden).get n = if n ∈ hidden then none else t.get n := rfl

theorem get_hide_of_notMem {hidden : List ℕ} (h : n ∉ hidden) (t : Slots limit α) :
    (t.hide hidden).get n = t.get n := by
  rw [get_hide, if_neg h]

theorem hide_put {hidden : List ℕ} (h : n ∉ hidden) (t : Slots limit α) (a : α) :
    (t.put n a).hide hidden = (t.hide hidden).put n a := by
  ext1
  funext m
  simp only [get_hide, put]
  by_cases hm : m ∈ hidden
  · have hne : ¬(m = n ∧ n < limit) := fun hmn => h (hmn.1 ▸ hm)
    simp [hm, hne]
  · simp [hm]

theorem hide_clear {hidden : List ℕ} (n : ℕ) (t : Slots limit α) :
    (t.clear n).hide hidden = (t.hide hidden).clear n := by
  ext1
  funext m
  simp only [get_hide, get_clear]
  by_cases hm : m ∈ hidden
  · simp [hm]
  · simp [hm]

theorem hide_nil (t : Slots limit α) : t.hide [] = t := by
  ext1
  funext n
  exact get_hide_of_notMem List.not_mem_nil t

/-- Freeing a hidden slot. -/
theorem hide_clear_cons (n : ℕ) (hidden : List ℕ) (t : Slots limit α) :
    (t.clear n).hide hidden = t.hide (n :: hidden) := by
  ext1
  funext m
  simp only [get_hide, get_clear, List.mem_cons]
  by_cases hm : m = n
  · simp [hm]
  · simp [hm]

/-- Filling a free slot that is hidden. -/
theorem hide_cons_put (h : t.get n = none) (hidden : List ℕ) (a : α) :
    (t.put n a).hide (n :: hidden) = t.hide hidden := by
  rw [← hide_clear_cons, clear_put h]

/-! ### Other contents -/

/-- The table with every content mapped. -/
def map {β : Type*} (f : α → β) (t : Slots limit α) : Slots limit β where
  get n := (t.get n).map f
  closed n hn := by rw [t.closed n hn]; rfl

@[simp] theorem get_map {β : Type*} (f : α → β) (t : Slots limit α) (n : ℕ) :
    (t.map f).get n = (t.get n).map f := rfl

/-- A table in which hidden slots are changed looks the same. -/
theorem hide_congr {hidden hidden' : List ℕ} {t t' : Slots limit α}
    (h : ∀ n, (if n ∈ hidden then none else t.get n) = if n ∈ hidden' then none else t'.get n) :
    t.hide hidden = t'.hide hidden' := by
  ext1
  funext n
  exact h n

/-! ### Sums over a table -/

section Sum

variable {M : Type*} [AddCommMonoid M]

/-- The sum over the slots that are filled. -/
def sum (t : Slots limit α) (f : α → M) : M := ∑ n ∈ Finset.range limit, (t.get n).elim 0 f

theorem sum_empty (f : α → M) : (empty : Slots limit α).sum f = 0 :=
  Finset.sum_eq_zero fun _ _ => rfl

theorem sum_put_of_free (h : t.get n = none) (hlt : n < limit) (a : α)
    (f : α → M) : (t.put n a).sum f = f a + t.sum f := by
  have hn : n ∈ Finset.range limit := Finset.mem_range.mpr hlt
  have hrest : ∀ m ∈ (Finset.range limit).erase n, ((t.put n a).get m).elim 0 f = (t.get m).elim 0 f := by
    intro m hm
    rw [get_put_of_ne _ (Finset.ne_of_mem_erase hm)]
  unfold sum
  rw [← Finset.add_sum_erase _ _ hn, ← Finset.add_sum_erase _ _ hn, Finset.sum_congr rfl hrest,
    get_put_self hlt, h, Option.elim_some, Option.elim_none, zero_add]

theorem sum_clear {a : α} (h : t.get n = some a) (f : α → M) :
    f a + (t.clear n).sum f = t.sum f := by
  have hfree : (t.clear n).get n = none := by rw [get_clear, if_pos rfl]
  rw [← sum_put_of_free hfree (lt_of_get h), put_clear, put_of_get h]

theorem sum_put {a : α} (h : t.get n = some a) (b : α) (f : α → M) :
    f a + (t.put n b).sum f = f b + t.sum f := by
  have hfree : (t.clear n).get n = none := by rw [get_clear, if_pos rfl]
  rw [← put_clear, sum_put_of_free hfree (lt_of_get h), ← sum_clear h, add_left_comm]

theorem sum_congr {t t' : Slots limit α} {f : α → M}
    (h : ∀ n, (t.get n).elim 0 f = (t'.get n).elim 0 f) : t.sum f = t'.sum f :=
  Finset.sum_congr rfl fun n _ => h n

theorem exists_of_sum_ne_zero {f : α → M} (h : t.sum f ≠ 0) :
    ∃ n a, t.get n = some a ∧ f a ≠ 0 := by
  obtain ⟨n, -, hn⟩ := Finset.exists_ne_zero_of_sum_ne_zero h
  cases hget : t.get n with
  | none =>
    rw [hget] at hn
    exact absurd rfl hn
  | some a =>
    rw [hget] at hn
    exact ⟨n, a, hget, hn⟩

end Sum

end Slots
