import Mathlib.Data.List.Induction
import Mathlib.Data.List.TakeWhile
import Mathlib.Data.Nat.Init

/-!
# Texts of components

A path, a list of search directories or a qualified name is a text of components with a
separator between them.  A component is a nonempty part without the separator; runs of
separators, and separators at the ends, do not count.

## Main definitions

* `Components.IsName sep name` — a text that can be a component.
* `components sep text` — the components of a text.
* `Components.joined sep names` — the components with one separator between two.

## Main results

* `components_append_sep` — the components on both sides of a separator.
* `components_span` — the first component and the rest, as a scanner finds them.
-/

namespace Components

open List

variable {α : Type*} {sep : α} {name : List α}

/-- A text that can be a component. -/
structure IsName (sep : α) (name : List α) : Prop where
  nonempty : name ≠ []
  free : sep ∉ name

/-- The components with one separator between two. -/
def joined (sep : α) : List (List α) → List α
  | [] => []
  | [name] => name
  | name :: names => name ++ sep :: joined sep names

@[simp] theorem joined_nil : joined sep [] = [] := rfl

@[simp] theorem joined_singleton : joined sep [name] = name := rfl

variable {names : List (List α)}

theorem joined_cons (h : names ≠ []) :
    joined sep (name :: names) = name ++ sep :: joined sep names := by
  cases names with
  | nil => exact absurd rfl h
  | cons => rfl

/-- One more component at the end. -/
theorem joined_concat (h : names ≠ []) :
    joined sep (names ++ [name]) = joined sep names ++ sep :: name := by
  induction names with
  | nil => exact absurd rfl h
  | cons first names ih =>
    cases names with
    | nil => rfl
    | cons second names =>
      have hmore : second :: names ≠ [] := cons_ne_nil _ _
      rw [cons_append, joined_cons (by simp), ih hmore, joined_cons hmore]
      simp only [append_assoc, cons_append]

theorem mem_joined {a : α} (h : a ∈ joined sep names) :
    a = sep ∨ ∃ n ∈ names, a ∈ n := by
  induction names with
  | nil => cases h
  | cons first names ih =>
    by_cases hnames : names = []
    · subst hnames
      exact .inr ⟨first, mem_cons_self, h⟩
    · rw [joined_cons hnames, mem_append, mem_cons] at h
      rcases h with h | h | h
      · exact .inr ⟨first, mem_cons_self, h⟩
      · exact .inl h
      · rcases ih h with h | ⟨n, hn, h⟩
        · exact .inl h
        · exact .inr ⟨n, mem_cons_of_mem _ hn, h⟩

/-- A text of names is empty only without one. -/
theorem joined_eq_nil (h : ∀ n ∈ names, IsName sep n) :
    joined sep names = [] ↔ names = [] := by
  cases names with
  | nil => simp
  | cons first names =>
    have hfirst := (h first mem_cons_self).nonempty
    cases names <;> simp [joined, hfirst]

theorem IsName.getLast_ne (h : IsName sep name) : name.getLast h.nonempty ≠ sep :=
  fun he => h.free (he ▸ getLast_mem h.nonempty)

/-- The first element of a text of names is no separator. -/
theorem head?_joined_ne (h : ∀ n ∈ names, IsName sep n) :
    (joined sep names).head? ≠ some sep := by
  cases names with
  | nil => simp
  | cons first names =>
    have hfirst := h first mem_cons_self
    obtain ⟨a, first, rfl⟩ := exists_cons_of_ne_nil hfirst.nonempty
    have ha : a ≠ sep := fun he => hfirst.free (he ▸ mem_cons_self)
    cases names <;> simpa [joined] using ha

/-- Nor is the last one. -/
theorem getLast?_joined_ne (h : ∀ n ∈ names, IsName sep n) :
    (joined sep names).getLast? ≠ some sep := by
  induction names using reverseRecOn with
  | nil => simp
  | append_singleton names last ih =>
    have hlast := h last (by simp)
    have hget : last.getLast? ≠ some sep := by
      rw [getLast?_eq_some_getLast hlast.nonempty]
      exact fun he => hlast.getLast_ne (Option.some.inj he)
    by_cases hnames : names = []
    · subst hnames
      exact hget
    · obtain ⟨a, last, rfl⟩ := exists_cons_of_ne_nil hlast.nonempty
      rw [joined_concat hnames, getLast?_append, getLast?_cons_cons]
      rw [getLast?_eq_some_getLast (cons_ne_nil a last)] at hget ⊢
      exact hget

variable [DecidableEq α]

/-- The components of a text. -/
def components (sep : α) (text : List α) : List (List α) :=
  (text.splitOn sep).filter fun part => !part.isEmpty

@[simp] theorem components_nil : components sep [] = [] := rfl

/-- The components on both sides of a separator. -/
theorem components_append_sep (a b : List α) :
    components sep (a ++ sep :: b) = components sep a ++ components sep b := by
  unfold components
  rw [splitOn_append_cons_self, filter_append]

@[simp] theorem components_sep_cons (b : List α) : components sep (sep :: b) = components sep b :=
  components_append_sep [] b

theorem components_name (h : IsName sep name) : components sep name = [name] := by
  unfold components
  rw [splitOn_eq_singleton h.free]
  simp [h.nonempty]

theorem components_dropWhile (text : List α) :
    components sep (text.dropWhile (· == sep)) = components sep text := by
  induction text with
  | nil => rfl
  | cons a text ih =>
    by_cases ha : a = sep
    · subst ha
      simp [ih]
    · rw [dropWhile_cons_of_neg (by simpa using ha)]

/-- The first component and the rest, as a scanner finds them. -/
theorem components_span {text : List α} (hne : text ≠ []) (hhead : text.head? ≠ some sep) :
    components sep text =
      text.takeWhile (· != sep) :: components sep (text.dropWhile (· != sep)) ∧
    IsName sep (text.takeWhile (· != sep)) := by
  have hname : IsName sep (text.takeWhile (· != sep)) := by
    constructor
    · cases text with
      | nil => exact absurd rfl hne
      | cons a text =>
        have ha : a ≠ sep := fun h => hhead (congrArg some h)
        simp [ha]
    · intro hmem
      have := mem_takeWhile_imp hmem
      simp at this
  refine ⟨?_, hname⟩
  conv_lhs => rw [← takeWhile_append_dropWhile (p := (· != sep)) (l := text)]
  cases hrest : text.dropWhile (· != sep) with
  | nil => rw [append_nil, components_name hname, components_nil]
  | cons a rest =>
    have ha : a = sep := by
      have := head_dropWhile_not (· != sep) (l := text) (by simp [hrest])
      simpa [hrest] using this
    subst ha
    rw [components_append_sep, components_name hname, components_sep_cons]
    rfl

theorem isName_of_mem {text : List α} (h : name ∈ components sep text) : IsName sep name := by
  induction hn : text.length using Nat.strong_induction_on generalizing text with
  | _ n ih =>
    cases text with
    | nil => simp at h
    | cons a text =>
      by_cases ha : a = sep
      · subst ha
        rw [components_sep_cons] at h
        exact ih text.length (by simp [← hn]) h rfl
      · have hhead : (a :: text).head? ≠ some sep := by simpa using ha
        obtain ⟨heq, hfirst⟩ := components_span (cons_ne_nil a text) hhead
        rw [heq, mem_cons] at h
        rcases h with rfl | h
        · exact hfirst
        · refine ih _ ?_ h rfl
          rw [← hn, dropWhile_cons_of_pos (by simpa using ha)]
          exact Nat.lt_succ_of_le (length_dropWhile_le _ _)

end Components
