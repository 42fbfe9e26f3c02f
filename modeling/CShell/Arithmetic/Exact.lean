import CShell.Lib.Signed
import CShell.Arithmetic.Values
import CShell.State.Reachable

/-!
# The operators of the source are exact

`operation` guards every operator by conditions that are C expressions themselves, on
operands from the ends of the range too.  `evaluated` is the `switch` of the source with
each of these expressions computed by the rules of C, in the order C computes them; it
has a value only if no step of it is undefined.

## Main definitions

* `evaluated` — the `switch` of `operation` by the rules of C.
* `exact` — the mathematical results.

## Main results

* `evaluated_eq` — every step is defined, and the result is the one of `compute`.
* `operation_exact` — **the result is the mathematical one, or a range error when there
  is none.**

## References

`src/arithmetic.c` (`operation`).
-/

namespace CShell
namespace Arithmetic

open Signed (InRange conj disj lt)

variable {a b : ℤ}

instance : DecidablePred InLong := fun n => inferInstanceAs (Decidable (longMin ≤ n ∧ n ≤ longMax))

theorem inRange_iff {n : ℤ} : InRange 64 n ↔ InLong n := by
  simp only [InRange, InLong, longMin, longMax]
  omega

/-! ### The `switch`, step by step -/

/-- The guard of `TOK_ADD`. -/
def addGuard (left right : ℤ) : Option Bool :=
  disj (conj (some (decide (0 < right))) (lt (Signed.sub 64 longMax right) (some left)))
    (conj (some (decide (right < 0))) (lt (some left) (Signed.sub 64 longMin right)))

/-- The guard of `TOK_SUB`. -/
def subGuard (left right : ℤ) : Option Bool :=
  disj (conj (some (decide (right < 0))) (lt (Signed.add 64 longMax right) (some left)))
    (conj (some (decide (0 < right))) (lt (some left) (Signed.add 64 longMin right)))

/-- The guard of `TOK_MUL`. -/
def mulGuard (left right : ℤ) : Option Bool :=
  if 0 < left then
    if 0 < right then lt (Signed.div 64 longMax right) (some left)
    else lt (some right) (Signed.div 64 longMin left)
  else
    conj (some (decide (left < 0)))
      (if 0 < right then lt (some left) (Signed.div 64 longMin right)
      else conj (some (decide (right < 0))) (lt (some left) (Signed.div 64 longMax right)))

/-- The guard of `TOK_DIV` and `TOK_MOD`. -/
def divGuard (left right : ℤ) : Option Bool :=
  disj (some (decide (right = 0)))
    (conj (some (decide (left = longMin))) (some (decide (right = -1))))

/-- The guard of `TOK_SHL` and `TOK_SHR`; the second comparison is one of `unsigned long`s. -/
def shiftGuard (right : ℤ) : Option Bool :=
  disj (some (decide (right < 0))) (some (decide (64 ≤ right % 2 ^ 64)))

/-- The second guard of `TOK_SHL`. -/
def shlGuard (left right : ℤ) : Option Bool :=
  disj (some (decide (left < 0))) (lt (Signed.shr 64 longMax right) (some left))

/-- Break at a guard, or compute. -/
def guarded (guard : Option Bool) (value : Option ℤ) : Option (Option ℤ) :=
  match guard with
  | some true => some none
  | some false => value.map some
  | none => none

/-- The `switch` of `operation`, every expression by the rules of C.  The outer `none` is
undefined behaviour, the next one the default label, the inner one a `break`. -/
def evaluated (token : Token) (left right : ℤ) : Option (Option (Option ℤ)) :=
  match token with
  | .add => (guarded (addGuard left right) (Signed.add 64 left right)).map some
  | .sub => (guarded (subGuard left right) (Signed.sub 64 left right)).map some
  | .mul => (guarded (mulGuard left right) (Signed.mul 64 left right)).map some
  | .div => (guarded (divGuard left right) (Signed.div 64 left right)).map some
  | .mod => (guarded (divGuard left right) (Signed.rem 64 left right)).map some
  | .shl =>
    match shiftGuard right with
    | some true => some (some none)
    | some false => (guarded (shlGuard left right) (Signed.shl 64 left right)).map some
    | none => none
  | .shr =>
    -- a negative value is shifted as its complement
    (guarded (shiftGuard right)
      (if 0 ≤ left then Signed.shr 64 left right
      else (Signed.sub 64 (-1) left).bind fun complement =>
        (Signed.shr 64 complement right).bind fun shifted => Signed.sub 64 (-1) shifted)).map some
  | _ => some (compute token left right)

theorem guarded_of {c : Prop} [Decidable c] {guard : Option Bool} {value : Option ℤ} {n : ℤ}
    (hguard : guard = some (decide c)) (hvalue : ¬c → value = some n) :
    guarded guard value = some (if c then none else some n) := by
  rw [hguard]
  by_cases hc : c
  · simp [guarded, hc]
  · simp [guarded, hc, hvalue hc]

/-! ### Every step is defined -/

theorem addGuard_eq (hb : InLong b) : addGuard a b =
    some (decide ((0 < b ∧ longMax - b < a) ∨ (b < 0 ∧ a < longMin - b))) := by
  simp only [InLong, longMin, longMax] at hb
  have hleft : conj (some (decide (0 < b))) (lt (Signed.sub 64 longMax b) (some a)) =
      some (decide (0 < b ∧ longMax - b < a)) := by
    apply Signed.conj_of
    intro hpos
    rw [Signed.sub_of (by simp only [InRange, longMax]; omega), Signed.lt_some]
  have hright : conj (some (decide (b < 0))) (lt (some a) (Signed.sub 64 longMin b)) =
      some (decide (b < 0 ∧ a < longMin - b)) := by
    apply Signed.conj_of
    intro hneg
    rw [Signed.sub_of (by simp only [InRange, longMin]; omega), Signed.lt_some]
  rw [addGuard, hleft]
  apply Signed.disj_of
  intro _
  exact hright

theorem subGuard_eq (hb : InLong b) : subGuard a b =
    some (decide ((b < 0 ∧ longMax + b < a) ∨ (0 < b ∧ a < longMin + b))) := by
  simp only [InLong, longMin, longMax] at hb
  have hleft : conj (some (decide (b < 0))) (lt (Signed.add 64 longMax b) (some a)) =
      some (decide (b < 0 ∧ longMax + b < a)) := by
    apply Signed.conj_of
    intro hneg
    rw [Signed.add_of (by simp only [InRange, longMax]; omega), Signed.lt_some]
  have hright : conj (some (decide (0 < b))) (lt (some a) (Signed.add 64 longMin b)) =
      some (decide (0 < b ∧ a < longMin + b)) := by
    apply Signed.conj_of
    intro hpos
    rw [Signed.add_of (by simp only [InRange, longMin]; omega), Signed.lt_some]
  rw [subGuard, hleft]
  apply Signed.disj_of
  intro _
  exact hright

/-- A quotient is a value of the type unless it is the one of the minimum by `-1`. -/
theorem inRange_tdiv (ha : InLong a) (hb : b ≠ 0) (h : ¬(a = longMin ∧ b = -1)) :
    InRange 64 (a.tdiv b) :=
  inRange_iff.mpr (not_not.mp fun hout => h ((div_guard ha hb).mpr hout))

theorem inLong_min : InLong longMin := by
  constructor <;> decide

theorem inLong_max : InLong longMax := by
  constructor <;> decide

theorem mulGuard_eq (a b : ℤ) : mulGuard a b =
    some (decide (if 0 < a then (if 0 < b then longMax.tdiv b < a else b < longMin.tdiv a)
      else a < 0 ∧ (if 0 < b then a < longMin.tdiv b else b < 0 ∧ a < longMax.tdiv b))) := by
  have hmax : ∀ c : ℤ, c ≠ 0 → Signed.div 64 longMax c = some (longMax.tdiv c) := by
    intro c hc
    apply Signed.div_of hc
    exact inRange_tdiv inLong_max hc fun h => absurd h.1 (by decide)
  have hmin : ∀ c : ℤ, 0 < c → Signed.div 64 longMin c = some (longMin.tdiv c) := by
    intro c hc
    apply Signed.div_of hc.ne'
    exact inRange_tdiv inLong_min hc.ne' fun h => by omega
  unfold mulGuard
  apply Signed.ite_of
  · intro hapos
    apply Signed.ite_of
    · intro hbpos
      rw [hmax b hbpos.ne', Signed.lt_some]
    · intro _
      rw [hmin a hapos, Signed.lt_some]
  · intro _
    apply Signed.conj_of
    intro _
    apply Signed.ite_of
    · intro hbpos
      rw [hmin b hbpos, Signed.lt_some]
    · intro _
      apply Signed.conj_of
      intro hbneg
      rw [hmax b hbneg.ne, Signed.lt_some]

theorem divGuard_eq (a b : ℤ) :
    divGuard a b = some (decide (b = 0 ∨ (a = longMin ∧ b = -1))) := by
  apply Signed.disj_of
  intro _
  apply Signed.conj_of
  intro _
  rfl

theorem shiftGuard_eq (hb : InLong b) : shiftGuard b = some (decide (b < 0 ∨ 64 ≤ b)) := by
  simp only [InLong, longMin, longMax] at hb
  apply Signed.disj_of
  intro hnonneg
  rw [show b % 2 ^ 64 = b by omega]

theorem shlGuard_eq (hlo : 0 ≤ b) (hhi : b < 64) :
    shlGuard a b = some (decide (a < 0 ∨ longMax >>> b.toNat < a)) := by
  apply Signed.disj_of
  intro _
  rw [Signed.shr_of (by decide) hlo hhi, Signed.lt_some, Int.shiftRight_eq_div_pow]
  push_cast
  rfl

/-- A shift to the right stays between the number and zero. -/
theorem shifted_range (b : ℤ) (hnonneg : 0 ≤ a) : 0 ≤ a / 2 ^ b.toNat ∧ a / 2 ^ b.toNat ≤ a := by
  have hpow : (0 : ℤ) < 2 ^ b.toNat := by positivity
  exact ⟨Int.ediv_nonneg hnonneg hpow.le, Int.ediv_le_self _ hnonneg⟩

/-- **No step of `operation` is undefined**, and together they compute what `compute` says. -/
theorem evaluated_eq (ha : InLong a) (hb : InLong b) (token : Token) : evaluated token a b = some (compute token a b) := by
  have ha' := ha
  have hb' := hb
  simp only [InLong, longMin, longMax] at ha' hb'
  cases token with
  | add =>
    simp only [evaluated, compute]
    rw [guarded_of (addGuard_eq hb)]
    · rfl
    · intro hno
      apply Signed.add_of
      simp only [InRange, longMin, longMax] at hno ⊢
      omega
  | sub =>
    simp only [evaluated, compute]
    rw [guarded_of (subGuard_eq hb)]
    · rfl
    · intro hno
      apply Signed.sub_of
      simp only [InRange, longMin, longMax] at hno ⊢
      omega
  | mul =>
    simp only [evaluated, compute]
    rw [guarded_of (mulGuard_eq a b)]
    · rfl
    · intro hno
      apply Signed.mul_of
      rw [mul_guard ha hb, not_not] at hno
      exact inRange_iff.mpr hno
  | div =>
    simp only [evaluated, compute]
    rw [guarded_of (divGuard_eq a b)]
    · rfl
    · intro hno
      rw [not_or] at hno
      exact Signed.div_of hno.1 (inRange_tdiv ha hno.1 hno.2)
  | mod =>
    simp only [evaluated, compute]
    rw [guarded_of (divGuard_eq a b)]
    · rfl
    · intro hno
      rw [not_or] at hno
      exact Signed.rem_of hno.1 (inRange_tdiv ha hno.1 hno.2)
  | shl =>
    simp only [evaluated, compute]
    rw [shiftGuard_eq hb]
    by_cases hout : b < 0 ∨ 64 ≤ b
    · simp [hout]
    · have hlo : 0 ≤ b := by omega
      have hhi : b < 64 := by omega
      rw [decide_eq_false hout, if_neg hout]
      simp only
      rw [guarded_of (n := a <<< b.toNat) (shlGuard_eq hlo hhi)]
      · rfl
      · intro hno
        rw [not_or, not_lt, not_lt, Int.shiftRight_eq_div_pow] at hno
        push_cast at hno
        have hpow : (0 : ℤ) < 2 ^ b.toNat := by positivity
        rw [Int.le_ediv_iff_mul_le hpow] at hno
        have hnonneg : 0 ≤ a * 2 ^ b.toNat := mul_nonneg hno.1 hpow.le
        rw [Int.shiftLeft_eq]
        apply Signed.shl_of hno.1 hlo hhi
        refine inRange_iff.mpr ⟨le_trans (by decide) hnonneg, hno.2⟩
  | shr =>
    simp only [evaluated, compute]
    rw [guarded_of (shiftGuard_eq hb)
      (n := if 0 ≤ a then a >>> b.toNat else -1 - ((-1 - a) >>> b.toNat))]
    · rfl
    · intro hno
      have hlo : 0 ≤ b := by omega
      have hhi : b < 64 := by omega
      by_cases hnonneg : 0 ≤ a
      · rw [if_pos hnonneg, if_pos hnonneg, Signed.shr_of hnonneg hlo hhi,
          Int.shiftRight_eq_div_pow]
        push_cast
        rfl
      · -- the complement of a negative value is not negative
        have hcomplement : 0 ≤ -1 - a := by omega
        obtain ⟨hmin, hmax⟩ := shifted_range b hcomplement
        rw [if_neg hnonneg, if_neg hnonneg, Int.shiftRight_eq_div_pow,
          Signed.sub_of (by simp only [InRange]; omega), Option.bind_some,
          Signed.shr_of hcomplement hlo hhi, Option.bind_some]
        push_cast
        apply Signed.sub_of
        simp only [InRange]
        omega
  | _ => rfl

/-! ### The mathematical results -/

/-- A result that is a value of a `long`. -/
def representable (n : ℤ) : Option ℤ := if InLong n then some n else none

/-- The result of a C operator on mathematical integers, where it is representable and
defined.  Division rounds to zero and the remainder has the sign of the dividend; a shift
to the left takes values that are not negative, and one to the right rounds down. -/
def exact (token : Token) (a b : ℤ) : Option ℤ :=
  match token with
  | .add => representable (a + b)
  | .sub => representable (a - b)
  | .mul => representable (a * b)
  | .div => if b = 0 then none else representable (a.tdiv b)
  | .mod => if b = 0 ∨ ¬InLong (a.tdiv b) then none else some (a.tmod b)
  | .shl => if 0 ≤ a ∧ 0 ≤ b ∧ b < 64 then representable (a * 2 ^ b.toNat) else none
  | .shr => if 0 ≤ b ∧ b < 64 then some (a / 2 ^ b.toNat) else none
  | .lt => some (if a < b then 1 else 0)
  | .le => some (if a ≤ b then 1 else 0)
  | .gt => some (if a > b then 1 else 0)
  | .ge => some (if a ≥ b then 1 else 0)
  | .eq => some (if a = b then 1 else 0)
  | .ne => some (if a ≠ b then 1 else 0)
  | .bitAnd => some (bitwise (· &&& ·) a b)
  | .bitXor => some (bitwise (· ^^^ ·) a b)
  | .bitOr => some (bitwise (· ||| ·) a b)
  | .and => some (if a ≠ 0 ∧ b ≠ 0 then 1 else 0)
  | .or => some (if a ≠ 0 ∨ b ≠ 0 then 1 else 0)
  | .comma => some b
  | _ => none

/-- The tokens of the binary operators: those `operation` has a case for. -/
def binaryToken : Token → Bool
  | .add | .sub | .mul | .div | .mod | .shl | .shr | .lt | .le | .gt | .ge | .eq | .ne
  | .bitAnd | .bitXor | .bitOr | .and | .or | .comma => true
  | _ => false

/-- A result, or a range error. -/
def orRange : Option ℤ → Except ArithResult ℤ
  | some n => .ok n
  | none => .error .range

theorem fit_eq (n : ℤ) : fit n = orRange (representable n) := by
  unfold fit representable
  by_cases h : InLong n
  · rw [if_pos h]
    exact if_pos h
  · rw [if_neg h]
    exact if_neg h

theorem arith_eq {token : Token} (htoken : binaryToken token = true) (hand : token ≠ .and)
    (hor : token ≠ .or) : arith token a b = orRange (exact token a b) := by
  cases token with
  | add | sub | mul => exact fit_eq _
  | div =>
    simp only [arith, exact]
    split
    · rfl
    · exact fit_eq _
  | mod =>
    simp only [arith, exact]
    by_cases hzero : b = 0
    · simp [hzero, orRange]
    · rw [if_neg hzero, fit_eq, representable]
      by_cases hin : InLong (a.tdiv b)
      · simp [hzero, hin, orRange, Except.map]
      · simp [hin, orRange, Except.map]
  | shl =>
    simp only [arith, exact]
    split
    · exact fit_eq _
    · rfl
  | shr =>
    simp only [arith, exact]
    split
    · rfl
    · rfl
  | and => exact absurd rfl hand
  | or => exact absurd rfl hor
  | lt | le | gt | ge | eq | ne => simp [arith, exact, orRange, truth]
  | bitAnd | bitXor | bitOr | comma => rfl
  | _ => cases htoken

theorem computed_eq {token : Token} (ha : InLong a) (hb : InLong b)
    (htoken : binaryToken token = true) :
    computed (compute token a b) = orRange (exact token a b) := by
  by_cases hand : token = .and
  · rw [hand, compute_and]
    simp [computed, exact, orRange, truth]
  · by_cases hor : token = .or
    · rw [hor, compute_or]
      simp [computed, exact, orRange, truth]
    · rw [compute_eq ha hb hand hor, arith_eq htoken hand hor]

variable {F : Type}

theorem operation_eq_settle (p : Parser F) (token : Token) :
    operation p token a b = settle p (computed (compute token a b)) := by
  unfold operation
  cases compute token a b with
  | none => rfl
  | some result =>
    cases result with
    | none => rfl
    | some n => rfl

/-- **The operators are exact.** On every two values of a `long` no expression of
`operation` is undefined, and the result is the mathematical one, or a range error when
there is none. -/
theorem operation_exact (p : Parser F) {token : Token} (htoken : binaryToken token = true)
    (ha : InLong a) (hb : InLong b) :
    evaluated token a b = some (compute token a b) ∧
      operation p token a b =
        match exact token a b with
        | some n => (p, n)
        | none => ({ p with error := .range }, 0) := by
  refine ⟨evaluated_eq ha hb token, ?_⟩
  rw [operation_eq_settle, computed_eq ha hb htoken]
  cases exact token a b with
  | some n => rfl
  | none => rfl

/-- The quotient at the end of the range that does not exist. -/
theorem operation_exact_min : ∃ p : Parser Unit,
    operation p .div longMin (-1) = ({ p with error := .range }, 0) := by
  refine ⟨{ next := [], state := .create [] [] [] 1 .stdin 0 false }, ?_⟩
  have hone : InLong (-1) := by
    constructor <;> decide
  have h := (operation_exact
    ({ next := [], state := .create [] [] [] 1 .stdin 0 false } : Parser Unit)
    (show binaryToken .div = true from rfl) inLong_min hone).2
  rwa [show exact .div longMin (-1) = none by decide] at h

end Arithmetic
end CShell
