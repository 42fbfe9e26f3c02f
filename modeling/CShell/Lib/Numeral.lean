import Mathlib.Data.Nat.Digits.Defs

/-!
# Numerals at the beginning of a text

A positional numeral is read digit by digit from the left, up to a limit or as far as
there are digits.  The alphabet and its digits are arbitrary.

## Main definitions

* `Numeral.Spelled digitOf digits values` — the digits have these values.
* `Numeral.Longest digitOf limit digits rest` — no more digits can be taken.

## Main results

* `Numeral.foldl_eq_ofDigits` — accumulation from the left is the positional value.
* `Numeral.exists_longest` — every text begins with a longest numeral.
-/

namespace Numeral

variable {α : Type*} {digitOf : α → Option ℕ} {limit : ℕ}

/-- Digits and their values. -/
def Spelled (digitOf : α → Option ℕ) (digits : List α) (values : List ℕ) : Prop :=
  List.Forall₂ (fun c value => digitOf c = some value) digits values

/-- The digits reach a limit, or no digit follows. -/
def Longest (digitOf : α → Option ℕ) (limit : ℕ) (digits rest : List α) : Prop :=
  digits.length ≤ limit ∧ (digits.length = limit ∨ ∀ c ∈ rest.head?, digitOf c = none)

theorem longest_nil_iff {rest : List α} :
    Longest digitOf (limit + 1) [] rest ↔ ∀ c ∈ rest.head?, digitOf c = none := by
  simp [Longest]

theorem longest_cons_iff {c : α} {digits rest : List α} :
    Longest digitOf (limit + 1) (c :: digits) rest ↔ Longest digitOf limit digits rest := by
  simp [Longest]

/-- Accumulation from the left is the positional value. -/
theorem foldl_eq_ofDigits (base : ℕ) (values : List ℕ) :
    values.foldl (fun n d => n * base + d) 0 = Nat.ofDigits base values.reverse := by
  rw [Nat.ofDigits_eq_foldr, List.foldr_reverse]
  congr 1
  funext n d
  simp [mul_comm, add_comm]

/-- Every text begins with a longest numeral. -/
theorem exists_longest (digitOf : α → Option ℕ) (limit : ℕ) (text : List α) :
    ∃ digits rest values, text = digits ++ rest ∧ Spelled digitOf digits values ∧
      Longest digitOf limit digits rest := by
  induction limit generalizing text with
  | zero => exact ⟨[], text, [], rfl, .nil, Nat.le_refl _, .inl rfl⟩
  | succ limit ih =>
    cases text with
    | nil =>
      refine ⟨[], [], [], rfl, .nil, longest_nil_iff.mpr ?_⟩
      simp
    | cons c text =>
      cases hd : digitOf c with
      | none =>
        refine ⟨[], c :: text, [], rfl, .nil, longest_nil_iff.mpr ?_⟩
        intro c' hc'
        cases hc'
        exact hd
      | some d =>
        obtain ⟨digits, rest, values, rfl, hspelled, hlongest⟩ := ih text
        exact ⟨c :: digits, rest, d :: values, rfl, .cons hd hspelled,
          longest_cons_iff.mpr hlongest⟩

end Numeral
