import Mathlib.Data.Int.Bitwise
import Mathlib.Tactic.Ring
import Mathlib.Tactic.Linarith
import CShell.Arithmetic.Lexical

/-!
# Values and operators

The overflow checks of `operation` decide whether the mathematical result is
representable, and the delayed reading of `read_value` is the reading of an
operand of the reference semantics.  Every value an evaluation produces fits a
`long`, which is what makes the guards of the source exact.

## Main results

* `compute_eq` — **the guarded C operators are the mathematical ones, with a range
  error exactly where the result does not fit.**
* `readValue_eq`, `applyUnary_eq`, `assign_eq` — the helpers of the evaluator in
  terms of `read`, `unaryArith` and `storeValue`.
* `inLong_of_force` — every value read fits a `long`.
-/

namespace CShell
namespace Arithmetic

/-- The values of a C `long`. -/
def InLong (n : ℤ) : Prop := longMin ≤ n ∧ n ≤ longMax

theorem inLong_zero : InLong 0 := by
  constructor <;> decide

theorem inLong_truth (b : Bool) : InLong (truth b) := by
  cases b <;> constructor <;> decide

theorem inLong_bitwise (op : BitVec 64 → BitVec 64 → BitVec 64) (a b : ℤ) :
    InLong (bitwise op a b) := by
  have h1 := (op (BitVec.ofInt 64 a) (BitVec.ofInt 64 b)).le_toInt
  have h2 := (op (BitVec.ofInt 64 a) (BitVec.ofInt 64 b)).toInt_lt
  simp only [InLong, bitwise, longMin, longMax]
  constructor <;> omega

theorem inLong_of_fit {n m : ℤ} (h : fit n = .ok m) : InLong m := by
  unfold fit at h
  split at h
  · next hn => cases h; exact hn
  · cases h

/-! ### The binary operators -/

/-- The outcome of the `switch` as a result class or a number. -/
def computed : Option (Option ℤ) → Except ArithResult ℤ
  | none => .error .syntaxError
  | some none => .error .range
  | some (some n) => .ok n

/-- A guard that fires exactly when the result does not fit is `fit`. -/
theorem computed_guard {c : Prop} [Decidable c] {n : ℤ} (h : c ↔ ¬ (longMin ≤ n ∧ n ≤ longMax)) :
    computed (some (if c then none else some n)) = fit n := by
  unfold fit
  by_cases hc : c
  · rw [if_pos hc, if_neg (h.mp hc)]; rfl
  · rw [if_neg hc, if_pos (not_not.mp fun hn => hc (h.mpr hn))]; rfl

theorem div_lt_iff {m a d : ℤ} (hd : 0 < d) : m / d < a ↔ m < a * d :=
  Int.ediv_lt_iff_lt_mul hd

/-- The four-way guard of multiplication. -/
theorem mul_guard {a b : ℤ} (ha : InLong a) (hb : InLong b) :
    (if 0 < a then (if 0 < b then longMax.tdiv b < a else b < longMin.tdiv a)
      else a < 0 ∧ (if 0 < b then a < longMin.tdiv b else b < 0 ∧ a < longMax.tdiv b)) ↔
      ¬ (longMin ≤ a * b ∧ a * b ≤ longMax) := by
  have hmin : longMin = -9223372036854775808 := by decide
  have hmax : longMax = 9223372036854775807 := by decide
  rw [hmin, hmax]
  rcases lt_trichotomy a 0 with ha0 | rfl | ha0
  · rw [if_neg (by omega)]
    rcases lt_trichotomy b 0 with hb0 | rfl | hb0
    · -- both negative: the product is positive
      have hdiv : (9223372036854775807 : ℤ).tdiv b = -(9223372036854775807 / -b) := by
        rw [← neg_neg b, Int.tdiv_neg, Int.tdiv_eq_ediv_of_nonneg (by decide), neg_neg]
      have hpos : 0 < a * b := mul_pos_of_neg_of_neg ha0 hb0
      rw [if_neg (by omega), hdiv, lt_neg, div_lt_iff (by omega), neg_mul_neg]
      constructor
      · rintro ⟨-, -, h⟩; omega
      · intro h; exact ⟨ha0, hb0, by omega⟩
    · simp
    · have hdiv : (-9223372036854775808 : ℤ).tdiv b = -(9223372036854775808 / b) := by
        rw [Int.neg_tdiv, Int.tdiv_eq_ediv_of_nonneg (by decide)]
      have hneg : a * b < 0 := mul_neg_of_neg_of_pos ha0 hb0
      rw [if_pos hb0, hdiv, lt_neg, div_lt_iff hb0, neg_mul]
      constructor
      · rintro ⟨-, h⟩; omega
      · intro h; exact ⟨ha0, by omega⟩
  · simp
  · rw [if_pos ha0]
    rcases lt_trichotomy b 0 with hb0 | rfl | hb0
    · have hdiv : (-9223372036854775808 : ℤ).tdiv a = -(9223372036854775808 / a) := by
        rw [Int.neg_tdiv, Int.tdiv_eq_ediv_of_nonneg (by decide)]
      have hneg : a * b < 0 := mul_neg_of_pos_of_neg ha0 hb0
      rw [if_neg (by omega), hdiv, lt_neg, div_lt_iff ha0, neg_mul, mul_comm b a]
      omega
    · have hdiv : (-9223372036854775808 : ℤ).tdiv a ≤ 0 := by
        rw [Int.neg_tdiv, Int.tdiv_eq_ediv_of_nonneg (by decide)]
        have hnonneg : 0 ≤ 9223372036854775808 / a := Int.ediv_nonneg (by decide) ha0.le
        omega
      rw [if_neg (lt_irrefl 0), mul_zero]
      omega
    · have hpos : 0 < a * b := mul_pos ha0 hb0
      rw [if_pos hb0, Int.tdiv_eq_ediv_of_nonneg (by decide), div_lt_iff hb0]
      omega

/-- The quotient of two representable numbers fails to be representable in one
case only. -/
theorem div_guard {a b : ℤ} (ha : InLong a) (hb : b ≠ 0) :
    (a = longMin ∧ b = -1) ↔ ¬ (longMin ≤ a.tdiv b ∧ a.tdiv b ≤ longMax) := by
  have hmin : longMin = -9223372036854775808 := by decide
  have hmax : longMax = 9223372036854775807 := by decide
  unfold InLong at ha
  rw [hmin, hmax] at ha ⊢
  constructor
  · rintro ⟨rfl, rfl⟩; decide
  · intro h
    have habs : (a.tdiv b).natAbs = a.natAbs / b.natAbs := Int.natAbs_tdiv a b
    have hle : a.natAbs / b.natAbs ≤ a.natAbs := Nat.div_le_self _ _
    rcases Nat.lt_or_ge b.natAbs 2 with hb2 | hb2
    · obtain rfl | rfl : b = 1 ∨ b = -1 := by omega
      · rw [Int.tdiv_one] at h; omega
      · rw [Int.tdiv_neg, Int.tdiv_one] at h; omega
    · have hhalf : a.natAbs / b.natAbs ≤ a.natAbs / 2 := Nat.div_le_div_left hb2 (by decide)
      omega

theorem shl_eq (a b : ℤ) :
    computed (compute .shl a b) = arith .shl a b := by
  simp only [compute, arith]
  by_cases hb : b < 0 ∨ 64 ≤ b
  · rw [if_pos hb, if_neg (by omega)]; rfl
  · rw [if_neg hb]
    by_cases ha0 : a < 0
    · rw [if_pos (Or.inl ha0), if_neg (by omega)]; rfl
    · have hpow : (0 : ℤ) < 2 ^ b.toNat := by positivity
      have hmem : 0 ≤ a ∧ 0 ≤ b ∧ b < 64 := by omega
      rw [if_pos hmem, Int.shiftLeft_eq, Int.shiftRight_eq_div_pow]
      refine computed_guard ?_
      have hnonneg : 0 ≤ a * 2 ^ b.toNat := mul_nonneg (by omega) hpow.le
      have hmin : longMin ≤ a * 2 ^ b.toNat := le_trans (by decide) hnonneg
      push_cast
      rw [div_lt_iff hpow]
      constructor
      · rintro (h | h)
        · omega
        · exact fun h' => absurd h'.2 (not_le.mpr h)
      · intro h
        exact Or.inr (not_le.mp fun h' => h ⟨hmin, h'⟩)

/-- The shift of a negative number rounds down. -/
theorem neg_shift_eq {a d : ℤ} (hd : 0 < d) : -1 - (-1 - a) / d = a / d := by
  have h1 : -1 - a = d * (-1 - a / d) + (d - 1 - a % d) := by
    have := Int.mul_ediv_add_emod a d
    rw [mul_sub, mul_neg, mul_one]
    omega
  have h2 : 0 ≤ d - 1 - a % d ∧ d - 1 - a % d < d := by
    have hlo := Int.emod_nonneg a hd.ne'
    have hhi := Int.emod_lt_of_pos a hd
    omega
  have h3 : (-1 - a) / d = -1 - a / d := by
    rw [h1, Int.mul_add_ediv_left _ _ hd.ne', Int.ediv_eq_zero_of_lt h2.1 h2.2]
    ring
  omega

theorem shr_eq (a b : ℤ) : computed (compute .shr a b) = arith .shr a b := by
  simp only [compute, arith]
  by_cases hb : b < 0 ∨ 64 ≤ b
  · rw [if_pos hb, if_neg (by omega)]; rfl
  · have hmem : 0 ≤ b ∧ b < 64 := by omega
    rw [if_neg hb, if_pos hmem]
    have hpow : (0 : ℤ) < 2 ^ b.toNat := by positivity
    simp only [computed, Int.shiftRight_eq_div_pow]
    push_cast
    split
    · rfl
    · rw [neg_shift_eq hpow]

/-- **The guarded C operators are the mathematical ones.** -/
theorem compute_eq {op : Token} {a b : ℤ} (ha : InLong a) (hb : InLong b) (hand : op ≠ .and)
    (hor : op ≠ .or) : computed (compute op a b) = arith op a b := by
  have ha' := ha
  have hb' := hb
  simp only [InLong, longMin, longMax] at ha' hb'
  cases op with
  | add =>
    simp only [compute, arith]
    exact computed_guard (by simp only [longMin, longMax]; omega)
  | sub =>
    simp only [compute, arith]
    exact computed_guard (by simp only [longMin, longMax]; omega)
  | mul =>
    simp only [compute, arith]
    exact computed_guard (mul_guard ha hb)
  | div =>
    simp only [compute, arith]
    by_cases hb0 : b = 0
    · rw [if_pos (Or.inl hb0), if_pos hb0]; rfl
    · rw [if_neg hb0]
      exact computed_guard (by rw [← div_guard ha hb0]; simp [hb0])
  | mod =>
    simp only [compute, arith]
    by_cases hb0 : b = 0
    · rw [if_pos (Or.inl hb0), if_pos hb0]; rfl
    · rw [if_neg hb0]
      by_cases hc : a = longMin ∧ b = -1
      · rw [if_pos (Or.inr hc), fit, if_neg ((div_guard ha hb0).mp hc)]; rfl
      · rw [if_neg (by simp [hb0, hc]), fit,
          if_pos (not_not.mp fun h => hc ((div_guard ha hb0).mpr h))]
        rfl
  | shl => exact shl_eq a b
  | shr => exact shr_eq a b
  | and => exact absurd rfl hand
  | or => exact absurd rfl hor
  | _ => rfl

theorem compute_and (a b : ℤ) : compute .and a b = some (some (truth (a ≠ 0 ∧ b ≠ 0))) := rfl

theorem compute_or (a b : ℤ) : compute .or a b = some (some (truth (a ≠ 0 ∨ b ≠ 0))) := rfl

/-- The operators keep to the values of a `long`. -/
theorem inLong_arith {op : Token} {a b n : ℤ} (ha : InLong a) (hb : InLong b)
    (h : arith op a b = .ok n) : InLong n := by
  cases op <;> simp only [arith] at h
  case add | sub | mul => exact inLong_of_fit h
  case div =>
    split at h
    · cases h
    · exact inLong_of_fit h
  case mod =>
    split at h
    · cases h
    · next hb0 =>
      cases hf : fit (a.tdiv b) with
      | error e => rw [hf] at h; cases h
      | ok q =>
        rw [hf] at h
        cases h
        -- a remainder is smaller than the divisor
        have hlt : (a.tmod b).natAbs < b.natAbs := by
          rw [Int.natAbs_tmod]; exact Nat.mod_lt _ (Int.natAbs_pos.mpr hb0)
        simp only [InLong, longMin, longMax] at hb ⊢
        omega
  case shl =>
    split at h
    · exact inLong_of_fit h
    · cases h
  case shr =>
    split at h
    · cases h
      have hpow : (0 : ℤ) < 2 ^ b.toNat := by positivity
      have hone : (1 : ℤ) ≤ 2 ^ b.toNat := hpow
      rcases lt_or_ge a 0 with ha0 | ha0
      · have h1 : a ≤ a / 2 ^ b.toNat := by
          rw [Int.le_ediv_iff_mul_le hpow]
          nlinarith
        have h2 : a / 2 ^ b.toNat < 0 := Int.ediv_neg_of_neg_of_pos ha0 hpow
        simp only [InLong, longMin, longMax] at ha ⊢
        omega
      · have h1 : a / 2 ^ b.toNat ≤ a := Int.ediv_le_self _ ha0
        have h2 : 0 ≤ a / 2 ^ b.toNat := Int.ediv_nonneg ha0 hpow.le
        simp only [InLong, longMin, longMax] at ha ⊢
        omega
    · cases h
  case lt | le | gt | ge | eq | ne => cases h; exact inLong_truth _
  case bitAnd | bitXor | bitOr => cases h; exact inLong_bitwise _ _ _
  case comma => cases h; exact hb
  all_goals cases h

theorem inLong_unaryArith {op : Token} {a n : ℤ} (ha : InLong a) (h : unaryArith op a = .ok n) :
    InLong n := by
  cases op <;> simp only [unaryArith] at h
  case sub => exact inLong_of_fit h
  case not => cases h; exact inLong_truth _
  case inv =>
    cases h
    simp only [InLong, longMin, longMax] at ha ⊢
    omega
  all_goals cases h; exact ha

/-! ### Reading operands -/

/-- The C value that stands for an operand. -/
def Operand.toValue : Operand → Value
  | .value n => { number := n }
  | .num n => classify n
  | .var x => { name := some x }

variable {F : Type}

/-- The parser with an error recorded, or with a number in hand. -/
def settle (p : Parser F) : Except ArithResult ℤ → Parser F × ℤ
  | .ok n => (p, n)
  | .error c => ({ p with error := c }, 0)

theorem fit_of_inLong {n : ℤ} (h : InLong n) : fit n = .ok n := if_pos h

theorem fit_of_not_inLong {n : ℤ} (h : ¬ InLong n) : fit n = .error .range := if_neg h

theorem classify_of_lt {n : ℕ} (h : n < 2 ^ 63) : classify n = { number := n } := by
  simp only [classify, h, if_true]

theorem classify_of_gt {n : ℕ} (h : 2 ^ 63 < n) : classify n = { high := 2 } := by
  have h1 : ¬ n < 2 ^ 63 := by omega
  have h2 : n ≠ 2 ^ 63 := by omega
  simp only [classify, h1, h2, if_false]

theorem fit_classify (n : ℕ) :
    fit n = if (classify n).high = 0 then .ok (classify n).number else .error .range := by
  rcases lt_trichotomy n (2 ^ 63) with h | h | h
  · rw [classify_of_lt h, fit_of_inLong (by simp only [InLong, longMin, longMax]; omega)]
    rfl
  · subst h; rfl
  · rw [classify_of_gt h, fit_of_not_inLong (by simp only [InLong, longMin, longMax]; omega)]
    rfl

theorem fit_neg_classify (n : ℕ) :
    fit (-n) = if (classify n).high = 1 then .ok longMin
      else if (classify n).high = 0 then .ok (-(classify n).number) else .error .range := by
  rcases lt_trichotomy n (2 ^ 63) with h | h | h
  · rw [classify_of_lt h, fit_of_inLong (by simp only [InLong, longMin, longMax]; omega)]
    rfl
  · subst h; rfl
  · rw [classify_of_gt h, fit_of_not_inLong (by simp only [InLong, longMin, longMax]; omega)]
    rfl

/-- What `readText` does behind the sign. -/
theorem literal_signed (negative : Bool) (digits : Bytes) :
    (match literal digits with
      | none => .error .syntaxError
      | some value =>
        if negative && value.high == 1 then .ok longMin
        else
          let number := if negative then -value.number else value.number
          if value.high != 0 then .error .range else .ok number)
      = signedConstant negative digits := by
  rw [literal_eq, signedConstant]
  cases constant digits with
  | none => rfl
  | some n =>
    cases negative with
    | true =>
      simp only [Option.map_some, if_true, fit_neg_classify, Bool.true_and, beq_iff_eq, bne_iff_ne,
        ne_eq, ite_not]
    | false =>
      simp only [Option.map_some, Bool.false_and, Bool.false_eq_true, if_false, fit_classify,
        bne_iff_ne, ne_eq, ite_not]

theorem readText_eq (byte : UInt8) (rest : Bytes) :
    readText (byte :: rest) = textValue (byte :: rest) := by
  have key := literal_signed
  unfold readText textValue
  by_cases hm : byte = byteOf '-'
  · simp only [hm, List.head?_cons, beq_self_eq_true, Bool.true_or, if_true, List.tail_cons]
    exact key true rest
  · have hm' : (some byte == some (byteOf '-')) = false := by simpa using hm
    simp only [List.head?_cons, hm', hm, Bool.false_or, if_false]
    by_cases hp : byte = byteOf '+'
    · simp only [hp, beq_self_eq_true, if_true, List.tail_cons]
      exact key false rest
    · have hp' : (some byte == some (byteOf '+')) = false := by simpa using hp
      simp only [hp', hp, Bool.false_eq_true, if_false]
      exact key false (byte :: rest)

/-- **`read_value` on a live parser is the reading of an operand.** -/
theorem readValue_eq {p : Parser F} (he : p.error = .ok) (ho : p.options = p.state.info.options)
    (o : Operand) : readValue p o.toValue true = settle p (read p.state o) := by
  simp only [readValue, he, bne_self_eq_false, Bool.not_true, Bool.or_self, Bool.false_eq_true,
    if_false]
  cases o with
  | value n => rfl
  | num n =>
    rw [show read p.state (.num n) = fit n from rfl, fit_classify]
    rcases lt_trichotomy n (2 ^ 63) with h | h | h
    · simp only [Operand.toValue, classify_of_lt h]; rfl
    · subst h; rfl
    · simp only [Operand.toValue, classify_of_gt h]; rfl
  | var x =>
    simp only [Operand.toValue, read, ← ho]
    cases hv : (p.state.getVariable x).2.value with
    | none => simp only; split <;> rfl
    | some text =>
      cases text with
      | nil => rfl
      | cons byte rest =>
        simp only [readText_eq]
        cases textValue (byte :: rest) <;> rfl

theorem readValue_of_not_execute (p : Parser F) (v : Value) : readValue p v false = (p, 0) := by
  simp [readValue]

theorem readValue_of_error {p : Parser F} (he : p.error ≠ .ok) (v : Value) (execute : Bool) :
    readValue p v execute = (p, 0) := by
  simp [readValue, he]

theorem inLong_textValue {text : Bytes} {n : ℤ} (h : textValue text = .ok n) : InLong n := by
  have key : ∀ negative digits, signedConstant negative digits = .ok n → InLong n := by
    intro negative digits h
    unfold signedConstant at h
    split at h
    · cases h
    · exact inLong_of_fit h
  unfold textValue at h
  split at h
  · cases h; exact inLong_zero
  · split at h
    · exact key _ _ h
    · split at h <;> exact key _ _ h

theorem inLong_read {s : State F} {o : Operand} {n : ℤ} (ho : ∀ m, o = .value m → InLong m)
    (h : read s o = .ok n) : InLong n := by
  cases o with
  | value m => cases h; exact ho _ rfl
  | num m => exact inLong_of_fit h
  | var x =>
    simp only [read] at h
    split at h
    · split at h
      · cases h
      · cases h; exact inLong_zero
    · exact inLong_textValue h

/-! ### Unary operators and assignment -/

theorem high_eq_one_iff (n : ℕ) : (classify n).high = 1 ↔ n = 2 ^ 63 := by
  rcases lt_trichotomy n (2 ^ 63) with h | h | h
  · rw [classify_of_lt h]
    exact ⟨fun h' => (by cases h'), fun h' => (by omega)⟩
  · subst h; exact ⟨fun _ => rfl, fun _ => rfl⟩
  · rw [classify_of_gt h]
    exact ⟨fun h' => (by cases h'), fun h' => (by omega)⟩

/-- `primary` on the operand of a unary operator, in execution. -/
theorem applyUnary_eq {p : Parser F} (he : p.error = .ok) (ho : p.options = p.state.info.options)
    (op : Token) (o : Operand) (hlong : ∀ n, read p.state o = .ok n → InLong n) :
    match (if op = .sub ∧ o = .num (2 ^ 63) then .ok longMin
        else (read p.state o).bind (unaryArith op)) with
    | .ok v => applyUnary p op o.toValue true = (p, { number := v })
    | .error c => ∃ v, applyUnary p op o.toValue true = ({ p with error := c }, v) := by
  have hhigh : (op == .sub && o.toValue.name.isNone && o.toValue.high == 1) = true ↔
      op = .sub ∧ o = .num (2 ^ 63) := by
    cases o with
    | value n => simp [Operand.toValue]
    | num n => simp [Operand.toValue, high_eq_one_iff, show (classify n).name = none from rfl]
    | var x => simp [Operand.toValue]
  have hlive : (true && p.error == .ok) = true := by simp [he]
  by_cases hc : op = .sub ∧ o = .num (2 ^ 63)
  · rw [if_pos hc]
    simp only [applyUnary, hlive, if_true, hhigh.mpr hc]
  · rw [if_neg hc]
    have hc' : ¬ (op == .sub && o.toValue.name.isNone && o.toValue.high == 1) = true :=
      fun h => hc (hhigh.mp h)
    simp only [applyUnary, hlive, if_true, hc', readValue_eq he ho, Bool.false_eq_true, if_false]
    cases hr : read p.state o with
    | error c =>
      have hne : (0 : ℤ) ≠ longMin := by decide
      simp only [settle, Except.bind, hne, and_false, if_false]
      exact ⟨_, rfl⟩
    | ok n =>
      have hn := hlong n hr
      simp only [settle, Except.bind]
      cases op with
      | sub =>
        simp only [unaryArith, true_and]
        by_cases hmin : n = longMin
        · subst hmin
          rw [show fit (-longMin) = .error .range from rfl]
          exact ⟨_, rfl⟩
        · have hfit : fit (-n) = .ok (-n) := by
            rw [fit, if_pos]
            simp only [InLong, longMin, longMax] at *
            omega
          rw [hfit, if_neg hmin]
      | _ => rfl

/-- `assign` in terms of the reference's store. -/
theorem assign_eq {p : Parser F} (ho : p.options = p.state.info.options) (x : Bytes) (n : ℤ) :
    match storeValue p.state x n with
    | .ok (_, s) => assign p x n = { p with state := s }
    | .error c => c ≠ .ok ∧ ∃ s, assign p x n = { p with state := s, error := c } := by
  unfold storeValue assign
  rw [ho]
  rcases store p.state p.state.info.options x n with ⟨r, s⟩
  cases r with
  | ok => rfl
  | invalid => exact ⟨by decide, s, rfl⟩
  | nomem => exact ⟨by decide, s, rfl⟩
  | readonly => exact ⟨by decide, s, rfl⟩

theorem storeValue_operand {s s' : State F} {x : Bytes} {n : ℤ} {o : Operand}
    (h : storeValue s x n = .ok (o, s')) : o = .value n := by
  unfold storeValue at h
  split at h
  · cases h; rfl
  all_goals cases h

theorem options_assigned (s : State F) (x : Bytes) : (s.assigned x).info = s.info := by
  unfold State.assigned State.hashClear
  simp only
  split <;> split <;> rfl

theorem options_setVariable (s : State F) (x value : Bytes) :
    (s.setVariable x value).2.info = s.info := by
  unfold State.setVariable
  split
  · rfl
  · split
    · split
      · rfl
      · simp only [options_assigned]
    · simp only [options_assigned]

theorem options_updateAttributes (s : State F) (x : Bytes) (set clear : UInt32) :
    (s.updateAttributes x set clear).2.info = s.info := by
  unfold State.updateAttributes
  split
  · rfl
  · split
    · split <;> rfl
    · simp only; split <;> rfl

/-- Assignments leave the options alone, so that the copy the parser took stays
right. -/
theorem storeValue_info {s s' : State F} {x : Bytes} {n : ℤ} {o : Operand}
    (h : storeValue s x n = .ok (o, s')) : s'.info = s.info := by
  have hset := options_setVariable s x (decimal n)
  have hstore : (store s s.info.options x n).2.info = s.info := by
    unfold store
    rcases hr : s.setVariable x (decimal n) with ⟨r, s₁⟩
    rw [hr] at hset
    cases r with
    | ok =>
      simp only
      split
      · rw [options_updateAttributes]; exact hset
      · exact hset
    | _ => exact hset
  unfold storeValue at h
  rcases hr : store s s.info.options x n with ⟨r, s₁⟩
  rw [hr] at h hstore
  cases r <;> cases h
  exact hstore

end Arithmetic
end CShell
