import Mathlib.Data.Int.Bitwise

/-!
# Signed machine integers

C leaves an operation on signed integers undefined when the result is not a value of
their type, when it divides by zero, and when it shifts by a negative amount, by the
width or more, or shifts a negative value.  The operators below have no result there, so
that an expression built from them has one exactly when C defines every step of it.

## Main definitions

* `Signed.InRange w n` — `n` is a value of the signed type of `w` bits.
* `Signed.add`, `sub`, `mul`, `div`, `rem`, `shl`, `shr` — the operators.
* `Signed.conj`, `Signed.disj` — `&&` and `||`, which leave their right side alone when
  the left one decides.

## Main results

* `Signed.add_of`, `sub_of`, `mul_of`, `div_of`, `rem_of`, `shl_of`, `shr_of` — the
  results where they are defined.
-/

namespace Signed

variable {w : ℕ} {a b : ℤ}

/-- The values of the signed type of `w` bits. -/
def InRange (w : ℕ) (n : ℤ) : Prop := -2 ^ (w - 1) ≤ n ∧ n < 2 ^ (w - 1)

instance (w : ℕ) : DecidablePred (InRange w) := fun n =>
  inferInstanceAs (Decidable (-2 ^ (w - 1) ≤ n ∧ n < 2 ^ (w - 1)))

/-- A result that has to be a value of the type. -/
def fits (w : ℕ) (n : ℤ) : Option ℤ := if InRange w n then some n else none

theorem fits_of {n : ℤ} (h : InRange w n) : fits w n = some n := if_pos h

/-! ### The operators -/

def add (w : ℕ) (a b : ℤ) : Option ℤ := fits w (a + b)

def sub (w : ℕ) (a b : ℤ) : Option ℤ := fits w (a - b)

def mul (w : ℕ) (a b : ℤ) : Option ℤ := fits w (a * b)

/-- Division rounds to zero. -/
def div (w : ℕ) (a b : ℤ) : Option ℤ := if b = 0 then none else fits w (a.tdiv b)

/-- The remainder is undefined where the quotient is. -/
def rem (w : ℕ) (a b : ℤ) : Option ℤ := (div w a b).map fun _ => a.tmod b

def shl (w : ℕ) (a b : ℤ) : Option ℤ :=
  if 0 ≤ a ∧ 0 ≤ b ∧ b < w then fits w (a * 2 ^ b.toNat) else none

def shr (w : ℕ) (a b : ℤ) : Option ℤ :=
  if 0 ≤ a ∧ 0 ≤ b ∧ b < w then some (a / 2 ^ b.toNat) else none

theorem add_of (h : InRange w (a + b)) : add w a b = some (a + b) := fits_of h

theorem sub_of (h : InRange w (a - b)) : sub w a b = some (a - b) := fits_of h

theorem mul_of (h : InRange w (a * b)) : mul w a b = some (a * b) := fits_of h

theorem div_of (hb : b ≠ 0) (h : InRange w (a.tdiv b)) : div w a b = some (a.tdiv b) := by
  rw [div, if_neg hb, fits_of h]

theorem rem_of (hb : b ≠ 0) (h : InRange w (a.tdiv b)) : rem w a b = some (a.tmod b) := by
  rw [rem, div_of hb h]
  rfl

theorem shl_of (ha : 0 ≤ a) (hb : 0 ≤ b) (hw : b < w) (h : InRange w (a * 2 ^ b.toNat)) :
    shl w a b = some (a * 2 ^ b.toNat) := by
  rw [shl, if_pos ⟨ha, hb, hw⟩, fits_of h]

theorem shr_of (ha : 0 ≤ a) (hb : 0 ≤ b) (hw : b < w) : shr w a b = some (a / 2 ^ b.toNat) :=
  if_pos ⟨ha, hb, hw⟩

/-! ### Conditions -/

/-- `p && q`. -/
def conj (p q : Option Bool) : Option Bool :=
  match p with
  | some true => q
  | some false => some false
  | none => none

/-- `p || q`. -/
def disj (p q : Option Bool) : Option Bool :=
  match p with
  | some true => some true
  | some false => q
  | none => none

/-- `a < b` of two expressions. -/
def lt (a b : Option ℤ) : Option Bool :=
  match a, b with
  | some a, some b => some (decide (a < b))
  | _, _ => none

@[simp] theorem lt_some (a b : ℤ) : lt (some a) (some b) = some (decide (a < b)) := rfl

/-- A conjunction whose right side is defined where the left one holds. -/
theorem conj_of {p q : Prop} [Decidable p] [Decidable q] {r : Option Bool}
    (h : p → r = some (decide q)) : conj (some (decide p)) r = some (decide (p ∧ q)) := by
  by_cases hp : p
  · rw [h hp]
    simp [conj, hp]
  · simp [conj, hp]

/-- A disjunction whose right side is defined where the left one fails. -/
theorem disj_of {p q : Prop} [Decidable p] [Decidable q] {r : Option Bool}
    (h : ¬p → r = some (decide q)) : disj (some (decide p)) r = some (decide (p ∨ q)) := by
  by_cases hp : p
  · simp [disj, hp]
  · rw [h hp]
    simp [disj, hp]

/-- A conditional expression evaluates one of its branches. -/
theorem ite_of {p q r : Prop} [Decidable p] [Decidable q] [Decidable r] {s t : Option Bool}
    (hs : p → s = some (decide q)) (ht : ¬p → t = some (decide r)) :
    (if p then s else t) = some (decide (if p then q else r)) := by
  by_cases hp : p
  · simp [hp, hs hp]
  · simp [hp, ht hp]

end Signed
