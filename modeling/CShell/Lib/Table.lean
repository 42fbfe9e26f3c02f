import Mathlib.Data.List.Nodup
import Mathlib.Data.List.Basic
import Mathlib.Data.List.Sort

/-!
# Tables kept as lists of entries

A table is a list of entries, each with a key; the first entry of a key is the
one that counts.  Nothing here knows what the keys or the values are.

## Main definitions

* `Table.find? k t` — the value of the first entry with key `k`.
* `Table.put k v t` — replace the value of `k` in place, or append a new entry.
* `Table.erase k t` — unlink the first entry with key `k`.
* `Table.insert lt k v t` — replace in place, or link a new entry before the
  first one whose key is not below `k`.

## Main results

* `Table.foldl_put` — **replaying a table whose keys are distinct through `put`
  rebuilds it, order included.**
* `Table.foldl_insert` — the same for `insert` and a strictly sorted table.
-/

namespace Table

open List

variable {κ ν : Type*}

/-- The keys of a table, in order. -/
def keys (t : List (κ × ν)) : List κ := t.map Prod.fst

@[simp] theorem keys_nil : keys ([] : List (κ × ν)) = [] := rfl

@[simp] theorem keys_cons (e : κ × ν) (t : List (κ × ν)) :
    keys (e :: t) = e.1 :: keys t := rfl

@[simp] theorem keys_append (t u : List (κ × ν)) : keys (t ++ u) = keys t ++ keys u := by
  simp [keys]

/-! ### Sorted tables -/

/-- Link a new entry before the first one whose key is not below `k`. -/
def link (lt : κ → κ → Bool) (k : κ) (v : ν) : List (κ × ν) → List (κ × ν)
  | [] => [(k, v)]
  | (k', v') :: t => if lt k' k then (k', v') :: link lt k v t else (k, v) :: (k', v') :: t

variable {k : κ} {t : List (κ × ν)} {v : ν}

section Sorted

variable {lt : κ → κ → Bool}

theorem keys_link_perm (k : κ) (v : ν) (t : List (κ × ν)) :
    (keys (link lt k v t)).Perm (k :: keys t) := by
  induction t with
  | nil => simp [link]
  | cons e t ih =>
    obtain ⟨k', v'⟩ := e
    simp only [link]
    split
    · exact ((List.Perm.cons k' ih).trans (List.Perm.swap _ _ _))
    · simp

/-- Linking an entry above every key of the table appends it. -/
theorem link_of_forall_lt (h : ∀ k' ∈ keys t, lt k' k = true) :
    link lt k v t = t ++ [(k, v)] := by
  induction t with
  | nil => rfl
  | cons e t ih =>
    obtain ⟨k', v'⟩ := e
    have hlt : lt k' k = true := h k' (by simp)
    simp [link, hlt, ih fun k'' hk => h k'' (by simp [hk])]

/-- A table is sorted when each key is strictly below every later one. -/
def Sorted (lt : κ → κ → Bool) (t : List (κ × ν)) : Prop :=
  (keys t).Pairwise fun a b => lt a b = true

theorem sorted_nil : Sorted lt ([] : List (κ × ν)) := List.Pairwise.nil

theorem sorted_link (htrans : ∀ a b c, lt a b = true → lt b c = true → lt a c = true)
    (htotal : ∀ a b, lt a b = false → a ≠ b → lt b a = true)
    (hs : Sorted lt t) (hk : k ∉ keys t) :
    Sorted lt (link lt k v t) := by
  induction t with
  | nil => simp [Sorted, link]
  | cons e t ih =>
    obtain ⟨k', v'⟩ := e
    simp only [keys_cons, mem_cons, not_or] at hk
    simp only [Sorted, keys_cons, pairwise_cons] at hs
    by_cases hlt : lt k' k = true
    · -- the new entry goes somewhere behind the head
      simp only [link, hlt, if_true, Sorted, keys_cons, pairwise_cons]
      refine ⟨fun b hb => ?_, ih hs.2 hk.2⟩
      have hb' : b = k ∨ b ∈ keys t := by
        simpa using (@keys_link_perm _ _ lt k v t).mem_iff.mp hb
      exact hb'.elim (fun e => e ▸ hlt) (hs.1 b)
    · -- the new entry goes in front of everything
      have hlt' : lt k k' = true := htotal k' k (by simpa using hlt) (Ne.symm hk.1)
      simp only [link, hlt, Bool.false_eq_true, if_false, Sorted, keys_cons, pairwise_cons]
      refine ⟨fun b hb => ?_, hs⟩
      rcases mem_cons.mp hb with rfl | hb
      · exact hlt'
      · exact htrans _ _ _ hlt' (hs.1 b hb)

end Sorted

/-! ### Looking up, replacing and erasing -/

variable [DecidableEq κ]

/-- The value of the first entry with key `k`. -/
def find? (k : κ) : List (κ × ν) → Option ν
  | [] => none
  | (k', v) :: t => if k' = k then some v else find? k t

/-- Replace the value of `k` in place, or append a new entry. -/
def put (k : κ) (v : ν) : List (κ × ν) → List (κ × ν)
  | [] => [(k, v)]
  | (k', v') :: t => if k' = k then (k', v) :: t else (k', v') :: put k v t

/-- Unlink the first entry with key `k`. -/
def erase (k : κ) : List (κ × ν) → List (κ × ν)
  | [] => []
  | (k', v') :: t => if k' = k then t else (k', v') :: erase k t

/-- Replace the value of `k` in place, or link a new entry at its sorted place. -/
def insert (lt : κ → κ → Bool) (k : κ) (v : ν) (t : List (κ × ν)) : List (κ × ν) :=
  if (find? k t).isSome then put k v t else link lt k v t

theorem find?_eq_none_iff : find? k t = none ↔ k ∉ keys t := by
  induction t with
  | nil => simp [find?]
  | cons e t ih =>
    obtain ⟨k', v'⟩ := e
    by_cases h : k' = k
    · simp [find?, h]
    · simp [find?, h, ih, Ne.symm h]

theorem isSome_find?_iff : (find? k t).isSome ↔ k ∈ keys t := by
  rw [← not_iff_not, Bool.not_eq_true, Option.isSome_eq_false_iff, Option.isNone_iff_eq_none,
    find?_eq_none_iff]

/-- The values after an entry is appended. -/
theorem values_put_of_none (h : find? k t = none) (v : ν) :
    (put k v t).map Prod.snd = t.map Prod.snd ++ [v] := by
  induction t with
  | nil => rfl
  | cons e t ih =>
    obtain ⟨k', v'⟩ := e
    rw [find?] at h
    split at h
    · cases h
    · next hne => rw [put, if_neg hne, map_cons, ih h, map_cons, cons_append]

/-- The values after one is replaced. -/
theorem values_put_of_some {old : ν} (h : find? k t = some old) (v : ν) :
    (old :: (put k v t).map Prod.snd).Perm (v :: t.map Prod.snd) := by
  induction t with
  | nil => cases h
  | cons e t ih =>
    obtain ⟨k', v'⟩ := e
    rw [find?] at h
    split at h
    · next heq =>
      cases h
      rw [put, if_pos heq]
      exact List.Perm.swap _ _ _
    · next hne =>
      rw [put, if_neg hne, map_cons, map_cons]
      exact (List.Perm.swap _ _ _).trans (((ih h).cons v').trans (List.Perm.swap _ _ _))

/-- The values after an entry is unlinked. -/
theorem values_erase {old : ν} (h : find? k t = some old) :
    (old :: (erase k t).map Prod.snd).Perm (t.map Prod.snd) := by
  induction t with
  | nil => cases h
  | cons e t ih =>
    obtain ⟨k', v'⟩ := e
    rw [find?] at h
    split at h
    · next heq =>
      cases h
      rw [erase, if_pos heq, map_cons]
    · next hne =>
      rw [erase, if_neg hne, map_cons, map_cons]
      exact (List.Perm.swap _ _ _).trans ((ih h).cons v')

theorem mem_of_find? (h : find? k t = some v) :
    v ∈ t.map Prod.snd := by
  induction t with
  | nil => cases h
  | cons e t ih =>
    obtain ⟨k', v'⟩ := e
    rw [find?] at h
    split at h
    · cases h
      exact mem_cons_self
    · exact mem_cons_of_mem _ (ih h)

theorem find?_put (k k' : κ) (v : ν) (t : List (κ × ν)) :
    find? k' (put k v t) = if k = k' then some v else find? k' t := by
  induction t with
  | nil => rfl
  | cons e t ih =>
    obtain ⟨k'', v''⟩ := e
    by_cases hk : k'' = k
    · subst hk
      by_cases hk' : k'' = k'
      · simp [put, find?, hk']
      · simp [put, find?, hk']
    · by_cases hk' : k'' = k'
      · subst hk'
        simp [put, find?, hk, Ne.symm hk]
      · simp [put, find?, hk, hk', ih]

/-- Dropping entries by their key keeps the values of the keys that stay. -/
theorem find?_filter {p : κ → Bool} (hk : p k = true) (t : List (κ × ν)) :
    find? k (t.filter fun e => p e.1) = find? k t := by
  induction t with
  | nil => rfl
  | cons e t ih =>
    obtain ⟨k', v⟩ := e
    by_cases hk' : k' = k
    · subst hk'
      simp [find?, hk]
    · by_cases hp : p k' = true
      · simp [find?, hp, hk', ih]
      · simp [find?, hp, hk', ih]

/-! ### Replacing and appending -/

theorem put_of_notMem (h : k ∉ keys t) :
    put k v t = t ++ [(k, v)] := by
  induction t with
  | nil => rfl
  | cons e t ih =>
    obtain ⟨k', v'⟩ := e
    simp only [keys_cons, mem_cons, not_or] at h
    simp [put, Ne.symm h.1, ih h.2]

theorem keys_put_of_mem (h : k ∈ keys t) :
    keys (put k v t) = keys t := by
  induction t with
  | nil => simp at h
  | cons e t ih =>
    obtain ⟨k', v'⟩ := e
    by_cases hk : k' = k
    · simp [put, hk]
    · have hm : k ∈ keys t := by simpa [Ne.symm hk] using h
      simp [put, hk, ih hm]

theorem nodup_keys_put (h : (keys t).Nodup) :
    (keys (put k v t)).Nodup := by
  by_cases hm : k ∈ keys t
  · rwa [keys_put_of_mem hm]
  · rw [put_of_notMem hm, keys_append]
    refine nodup_append.mpr ⟨h, by simp, ?_⟩
    intro a ha b hb hab
    have hbk : b = k := by simpa using hb
    exact hm (hbk ▸ hab ▸ ha)

theorem mem_keys_put {k' : κ} :
    k' ∈ keys (put k v t) ↔ k' = k ∨ k' ∈ keys t := by
  by_cases hm : k ∈ keys t
  · rw [keys_put_of_mem hm]
    exact ⟨Or.inr, fun h => h.elim (fun e => e ▸ hm) id⟩
  · rw [put_of_notMem hm]
    simp [or_comm]

/-- Replaying entries with fresh keys through `put` appends them. -/
theorem foldl_put_append (t u : List (κ × ν)) (h : (keys (u ++ t)).Nodup) :
    t.foldl (fun acc e => put e.1 e.2 acc) u = u ++ t := by
  induction t generalizing u with
  | nil => simp
  | cons e t ih =>
    have hfresh : e.1 ∉ keys u := by
      rw [keys_append, keys_cons, nodup_append] at h
      exact fun hm => h.2.2 _ hm _ mem_cons_self rfl
    rw [foldl_cons, put_of_notMem hfresh, ih]
    · simp
    · simpa using h

/-- **Replaying a table with distinct keys through `put` rebuilds it.** -/
theorem foldl_put (h : (keys t).Nodup) :
    t.foldl (fun acc e => put e.1 e.2 acc) [] = t := by
  simpa using foldl_put_append t [] (by simpa using h)

/-! ### Erasing -/

theorem keys_erase_sublist (k : κ) (t : List (κ × ν)) : (keys (erase k t)).Sublist (keys t) := by
  induction t with
  | nil => simp [erase]
  | cons e t ih =>
    obtain ⟨k', v'⟩ := e
    by_cases hk : k' = k
    · simp [erase, hk]
    · simp [erase, hk, ih]

/-! ### Sorted insertion -/

section Insert

variable {lt : κ → κ → Bool}

theorem sorted_insert (htrans : ∀ a b c, lt a b = true → lt b c = true → lt a c = true)
    (htotal : ∀ a b, lt a b = false → a ≠ b → lt b a = true)
    (hs : Sorted lt t) : Sorted lt (insert lt k v t) := by
  by_cases hm : k ∈ keys t
  · have hput : keys (put k v t) = keys t := keys_put_of_mem hm
    rw [insert, if_pos (isSome_find?_iff.mpr hm), Sorted, hput]
    exact hs
  · rw [insert, if_neg (fun h => hm (isSome_find?_iff.mp h))]
    exact sorted_link htrans htotal hs hm

theorem mem_keys_insert {k' : κ} :
    k' ∈ keys (insert lt k v t) ↔ k' = k ∨ k' ∈ keys t := by
  unfold insert
  split
  · exact mem_keys_put
  · simpa using (@keys_link_perm _ _ lt k v t).mem_iff

theorem sorted_erase (hs : Sorted lt t) : Sorted lt (erase k t) :=
  List.Pairwise.sublist (keys_erase_sublist k t) hs

/-- **Replaying a strictly sorted table through `insert` rebuilds it.** -/
theorem foldl_insert (hirrefl : ∀ a, lt a a = false) (hs : Sorted lt t) :
    t.foldl (fun acc e => insert lt e.1 e.2 acc) [] = t := by
  -- the part already rebuilt lies below everything still to come
  have key : ∀ (t u : List (κ × ν)), Sorted lt (u ++ t) →
      t.foldl (fun acc e => insert lt e.1 e.2 acc) u = u ++ t := by
    intro t
    induction t with
    | nil => intro u _; simp
    | cons e t ih =>
      intro u hu
      have hbelow : ∀ k' ∈ keys u, lt k' e.1 = true := by
        rw [Sorted, keys_append, keys_cons, pairwise_append] at hu
        exact fun k' hk' => hu.2.2 k' hk' _ mem_cons_self
      have hfresh : e.1 ∉ keys u := fun hm => by
        have := hbelow _ hm
        rw [hirrefl] at this
        cases this
      have hnew : insert lt e.1 e.2 u = u ++ [e] := by
        rw [insert, if_neg (fun h => hfresh (isSome_find?_iff.mp h)), link_of_forall_lt hbelow]
      rw [foldl_cons, hnew, ih _ (by simpa using hu)]
      simp
  simpa using key t [] (by simpa using hs)

end Insert

end Table
