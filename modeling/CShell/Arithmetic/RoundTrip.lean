import CShell.Lib.Numeral
import CShell.Arithmetic.Correct
import CShell.State.Scope

/-!
# Numbers as texts and back

A number goes into a variable as `%ld` prints it and comes out as `read_value` reads the
constant again, the minimum of the range included: its magnitude is no `long`, and the
sign decides whether that is an error.

## Main definitions

* `Denotes text n` — the constants of the three bases and their values.
* `literalWords` — the digit loop of `literal` on `unsigned long`s.

## Main results

* `literal_iff` — `literal` accepts the constants and classifies their values.
* `literalWords_eq` — no step of the loop wraps around.
* `textValue_decimal` — a printed number is read as itself.
* `integer_round_trip` — **both, with the way through a variable.**

## References

`src/arithmetic.c` (`literal`, `read_value`, `assign`).
-/

namespace CShell
namespace Arithmetic

/-! ### Constants -/

/-- The digits a text spells in a base. -/
def Digits (base : ℕ) (text : Bytes) (ds : List ℕ) : Prop :=
  List.Forall₂ (fun byte d => digitValue byte = some d ∧ d < base) text ds

/-- A text is a decimal, octal or hexadecimal constant of a value. -/
inductive Denotes : Bytes → ℕ → Prop
  | decimal {first rest ds} (hfirst : first ≠ byteOf '0') (h : Digits 10 (first :: rest) ds) :
      Denotes (first :: rest) (Nat.ofDigits 10 ds.reverse)
  | octal {rest ds} (h : Digits 8 rest ds) :
      Denotes (byteOf '0' :: rest) (Nat.ofDigits 8 ds.reverse)
  | hexadecimal {x digits ds} (hx : x = byteOf 'x' ∨ x = byteOf 'X') (hne : digits ≠ [])
      (h : Digits 16 digits ds) :
      Denotes (byteOf '0' :: x :: digits) (Nat.ofDigits 16 ds.reverse)

theorem digits?_eq_some {base : ℕ} {text : Bytes} {ds : List ℕ} :
    digits? base text = some ds ↔ Digits base text ds := by
  induction text generalizing ds with
  | nil =>
    simp only [digits?, Digits, List.forall₂_nil_left_iff, Option.some.injEq]
    exact eq_comm
  | cons byte rest ih =>
    simp only [Digits, List.forall₂_cons_left_iff]
    cases hd : digitValue byte with
    | none => simp [digits?, hd]
    | some d =>
      by_cases hlt : d < base
      · simp only [digits?, hd, hlt, if_true, Option.map_eq_some_iff, Option.some.injEq, ih, Digits]
        constructor
        · rintro ⟨us, hus, rfl⟩
          exact ⟨d, us, ⟨rfl, hlt⟩, hus, rfl⟩
        · rintro ⟨d', us, ⟨rfl, -⟩, hus, rfl⟩
          exact ⟨us, hus, rfl⟩
      · simp only [digits?, hd, hlt, if_false, Option.some.injEq]
        constructor
        · intro h
          cases h
        · rintro ⟨d', us, ⟨rfl, hlt'⟩, -⟩
          exact absurd hlt' hlt

theorem constant_eq_some {text : Bytes} {n : ℕ} : constant text = some n ↔ Denotes text n := by
  -- a base, its digits and their value
  have key : ∀ base digits, literalBase text = some (base, digits) →
      (constant text = some n ↔
        ∃ ds, Digits base digits ds ∧ Nat.ofDigits base ds.reverse = n) := by
    intro base digits hbase
    simp only [constant, hbase, Option.bind_some, Option.map_eq_some_iff, digits?_eq_some,
      Numeral.foldl_eq_ofDigits]
  constructor
  · intro h
    cases text with
    | nil => cases h
    | cons first rest =>
      by_cases hzero : first = byteOf '0'
      · subst hzero
        have hoctal : literalBase (byteOf '0' :: rest) = some (8, byteOf '0' :: rest) →
            Denotes (byteOf '0' :: rest) n := by
          intro hbase
          obtain ⟨ds, hds, rfl⟩ := (key _ _ hbase).mp h
          -- the leading zero adds nothing
          cases hds with
          | @cons _ d _ us hd hus =>
            have hd0 : d = 0 := by
              have : digitValue (byteOf '0') = some 0 := by decide
              rw [this] at hd
              exact (Option.some.inj hd.1).symm
            rw [List.reverse_cons, Nat.ofDigits_append, hd0]
            simpa using Denotes.octal hus
        cases rest with
        | nil => exact hoctal rfl
        | cons second digits =>
          by_cases hx : second = byteOf 'x' ∨ second = byteOf 'X'
          · have hx' : (second == byteOf 'x' || second == byteOf 'X') = true := by simpa using hx
            cases digits with
            | nil => simp [constant, literalBase, hx'] at h
            | cons third more =>
              have hbase : literalBase (byteOf '0' :: second :: third :: more) =
                  some (16, third :: more) := by
                simp [literalBase, hx']
              obtain ⟨ds, hds, rfl⟩ := (key _ _ hbase).mp h
              exact .hexadecimal hx (List.cons_ne_nil _ _) hds
          · apply hoctal
            simp only [not_or] at hx
            simp [literalBase, hx.1, hx.2]
      · have hbase : literalBase (first :: rest) = some (10, first :: rest) := by
          simp [literalBase, hzero]
        obtain ⟨ds, hds, rfl⟩ := (key _ _ hbase).mp h
        exact .decimal hzero hds
  · intro h
    cases h with
    | @decimal first rest ds hfirst hds =>
      refine (key 10 (first :: rest) ?_).mpr ⟨ds, hds, rfl⟩
      simp [literalBase, hfirst]
    | @octal rest ds hds =>
      refine (key 8 (byteOf '0' :: rest) ?_).mpr ⟨0 :: ds, ?_, ?_⟩
      · cases hds with
        | nil => rfl
        | @cons second d _ _ hd _ =>
          -- `x` is no octal digit
          have hx : (second == byteOf 'x' || second == byteOf 'X') = false := by
            rw [Bool.or_eq_false_iff, beq_eq_false_iff_ne, beq_eq_false_iff_ne]
            constructor
            · rintro rfl
              rw [show digitValue (byteOf 'x') = none by decide] at hd
              cases hd.1
            · rintro rfl
              rw [show digitValue (byteOf 'X') = none by decide] at hd
              cases hd.1
          simp [literalBase, hx]
      · exact .cons ⟨by decide, by decide⟩ hds
      · rw [List.reverse_cons, Nat.ofDigits_append]
        simp
    | @hexadecimal x digits ds hx hne hds =>
      refine (key 16 digits ?_).mpr ⟨ds, hds, rfl⟩
      have hx' : (x == byteOf 'x' || x == byteOf 'X') = true := by simpa using hx
      simp [literalBase, hx', hne]

/-- **`literal` accepts the constants**, and its answer says on which side of `2^63` the
value lies. -/
theorem literal_iff (text : Bytes) (v : Value) :
    literal text = some v ↔ ∃ n, Denotes text n ∧ v = classify n := by
  rw [literal_eq, Option.map_eq_some_iff]
  constructor
  · rintro ⟨n, hn, rfl⟩
    exact ⟨n, constant_eq_some.mp hn, rfl⟩
  · rintro ⟨n, hn, rfl⟩
    exact ⟨n, constant_eq_some.mpr hn, rfl⟩

/-- What the classification says. -/
theorem classify_spec (n : ℕ) :
    (classify n).name = none ∧ ((n : ℤ) ≤ longMax ↔ (classify n).high = 0) ∧
      ((n : ℤ) ≤ longMax → (classify n).number = n) ∧
      ((classify n).high = 1 ↔ n = 2 ^ 63) ∧ ((classify n).high = 2 ↔ 2 ^ 63 < n) := by
  refine ⟨rfl, ?_⟩
  rcases lt_trichotomy n (2 ^ 63) with h | h | h
  · rw [classify_of_lt h]
    dsimp only [longMax]
    omega
  · subst h
    decide
  · rw [classify_of_gt h]
    dsimp only [longMax]
    omega

/-! ### The loop on machine words -/

/-- `(unsigned long)LONG_MAX + 1UL`. -/
def limitWord : UInt64 := 9223372036854775807 + 1

/-- The digit loop of `literal`, computed on `unsigned long`s, which wrap around. -/
def literalWords (base : UInt64) : Bytes → UInt64 → Bool → Option (UInt64 × Bool)
  | [], magnitude, tooLarge => some (magnitude, tooLarge)
  | byte :: rest, magnitude, tooLarge =>
    match digitValue byte with
    | none => none
    | some number =>
      if base.toNat ≤ number then none
      else if tooLarge then literalWords base rest magnitude true
      else if (limitWord - number.toUInt64) / base < magnitude then
        literalWords base rest magnitude true
      else literalWords base rest (magnitude * base + number.toUInt64) false

/-- **No step of the loop wraps around.** -/
theorem literalWords_eq (base : UInt64) (hbase : 2 ≤ base.toNat ∧ base.toNat ≤ 16)
    (digits : Bytes) : ∀ (magnitude : UInt64) (tooLarge : Bool), magnitude.toNat ≤ 2 ^ 63 →
      (literalWords base digits magnitude tooLarge).map (fun r => (r.1.toNat, r.2)) =
        literalLoop base.toNat digits magnitude.toNat tooLarge := by
  induction digits with
  | nil =>
    intro magnitude tooLarge _
    rfl
  | cons byte rest ih =>
    intro magnitude tooLarge hle
    simp only [literalWords, literalLoop]
    cases digitValue byte with
    | none => rfl
    | some number =>
      simp only
      by_cases hdigit : base.toNat ≤ number
      · rw [if_pos hdigit, if_pos hdigit]
        rfl
      · rw [if_neg hdigit, if_neg hdigit]
        cases tooLarge with
        | true => exact ih magnitude true hle
        | false =>
          simp only [Bool.false_eq_true, if_false]
          have hnumber : number.toUInt64.toNat = number := by
            simp only [Nat.toUInt64, UInt64.toNat_ofNat']
            omega
          have hdiv : ((limitWord - number.toUInt64) / base).toNat =
              (2 ^ 63 - number) / base.toNat := by
            rw [UInt64.toNat_div, UInt64.toNat_sub_of_le, hnumber]
            · rfl
            · rw [UInt64.le_iff_toNat_le, hnumber, show limitWord.toNat = 2 ^ 63 from rfl]
              omega
          by_cases hbig : (2 ^ 63 - number) / base.toNat < magnitude.toNat
          · rw [if_pos (by rwa [UInt64.lt_iff_toNat_lt, hdiv]), if_pos hbig]
            exact ih magnitude true hle
          · rw [if_neg (by rwa [UInt64.lt_iff_toNat_lt, hdiv]), if_neg hbig]
            -- the guard leaves room for the product and the digit
            have hroom : magnitude.toNat * base.toNat + number ≤ 2 ^ 63 := by
              rw [Nat.div_lt_iff_lt_mul (by omega)] at hbig
              omega
            have hstep : (magnitude * base + number.toUInt64).toNat =
                magnitude.toNat * base.toNat + number := by
              rw [UInt64.toNat_add, UInt64.toNat_mul, hnumber]
              rw [Nat.mod_eq_of_lt (a := magnitude.toNat * base.toNat) (by omega)]
              exact Nat.mod_eq_of_lt (by omega)
            rw [← hstep]
            exact ih _ false (by omega)

/-! ### Printing -/

/-- The digits `%ld` prints. -/
def numeral (n : ℕ) : Bytes := (Nat.toDigits 10 n).map byteOf

theorem numeral_eq (n : ℕ) :
    numeral n = if n < 10 then [byteOf n.digitChar]
      else numeral (n / 10) ++ [byteOf (n % 10).digitChar] := by
  unfold numeral
  rw [Nat.toDigits_eq_if (by decide)]
  split
  · rfl
  · rw [List.map_append]
    rfl

theorem digitValue_digitChar {d : ℕ} (h : d < 10) : digitValue (byteOf d.digitChar) = some d := by
  have hall : ∀ d < 10, digitValue (byteOf (Nat.digitChar d)) = some d := by decide
  exact hall d h

theorem digits_numeral (n : ℕ) :
    ∃ ds, Digits 10 (numeral n) ds ∧ Nat.ofDigits 10 ds.reverse = n := by
  induction n using Nat.strong_induction_on with
  | _ n ih =>
    rw [numeral_eq]
    by_cases hlt : n < 10
    · rw [if_pos hlt]
      refine ⟨[n], .cons ⟨digitValue_digitChar hlt, hlt⟩ .nil, ?_⟩
      simp
    · rw [if_neg hlt]
      obtain ⟨ds, hds, hvalue⟩ := ih (n / 10) (by omega)
      have hmod : n % 10 < 10 := Nat.mod_lt _ (by decide)
      refine ⟨ds ++ [n % 10], ?_, ?_⟩
      · exact List.rel_append hds (.cons ⟨digitValue_digitChar hmod, hmod⟩ .nil)
      · rw [List.reverse_append, List.reverse_singleton, List.singleton_append, Nat.ofDigits_cons,
          hvalue]
        exact Nat.mod_add_div n 10

/-- A positive number is printed without a leading zero, and no number with a sign. -/
theorem numeral_head (n : ℕ) : ∃ first rest, numeral n = first :: rest ∧
    digit first = true ∧ (0 < n → first ≠ byteOf '0') := by
  induction n using Nat.strong_induction_on with
  | _ n ih =>
    rw [numeral_eq]
    by_cases hlt : n < 10
    · rw [if_pos hlt]
      have hall : ∀ d < 10, digit (byteOf (Nat.digitChar d)) = true ∧
          (0 < d → byteOf (Nat.digitChar d) ≠ byteOf '0') := by decide
      exact ⟨_, _, rfl, hall n hlt⟩
    · rw [if_neg hlt]
      obtain ⟨first, rest, heq, hdigit, hzero⟩ := ih (n / 10) (by omega)
      rw [heq]
      exact ⟨first, rest ++ _, rfl, hdigit, fun _ => hzero (by omega)⟩

/-- A printed number is a constant again, zero an octal one. -/
theorem constant_numeral (n : ℕ) : constant (numeral n) = some n := by
  rw [constant_eq_some]
  rcases Nat.eq_zero_or_pos n with rfl | hpos
  · exact Denotes.octal .nil
  · obtain ⟨ds, hds, hvalue⟩ := digits_numeral n
    obtain ⟨first, rest, heq, -, hzero⟩ := numeral_head n
    rw [heq] at hds ⊢
    have h := Denotes.decimal (hzero hpos) hds
    rwa [hvalue] at h

/-- **A printed number is read as itself.** -/
theorem textValue_decimal {n : ℤ} (hn : InLong n) : textValue (decimal n) = .ok n := by
  have hdecimal : decimal n = if n < 0 then byteOf '-' :: numeral n.natAbs else numeral n.natAbs :=
    rfl
  rw [hdecimal]
  by_cases hneg : n < 0
  · have hvalue : -(n.natAbs : ℤ) = n := by omega
    rw [if_pos hneg, textValue, if_pos rfl, signedConstant, constant_numeral]
    simp only [if_true]
    rw [hvalue, fit_of_inLong hn]
  · have hvalue : (n.natAbs : ℤ) = n := by omega
    obtain ⟨first, rest, heq, hdigit, -⟩ := numeral_head n.natAbs
    have hminus : first ≠ byteOf '-' := by
      rintro rfl
      revert hdigit
      decide
    have hplus : first ≠ byteOf '+' := by
      rintro rfl
      revert hdigit
      decide
    rw [if_neg hneg, heq, textValue, if_neg hminus, if_neg hplus, ← heq, signedConstant,
      constant_numeral]
    simp only [Bool.false_eq_true, if_false]
    rw [hvalue, fit_of_inLong hn]

/-! ### The way through a variable -/

variable {F : Type}

theorem reachable_store {s : State F} (hs : s.Reachable) (options : UInt32) (x : Bytes) (n : ℤ) :
    (store s options x n).2.Reachable := by
  have hset := hs.setVariable x (decimal n)
  unfold store
  rcases hresult : s.setVariable x (decimal n) with ⟨result, s'⟩
  rw [hresult] at hset
  cases result with
  | ok =>
    simp only
    split
    · exact hset.updateAttributes _ _ _
    · exact hset
  | _ => exact hset

/-- Exporting a variable leaves its value alone. -/
theorem value_updateAttributes {s : State F} {x : Bytes} :
    ((s.updateAttributes x Attr.exported 0).2.binding x).bind VariableView.value =
      (s.binding x).bind VariableView.value := by
  rw [State.binding_updateAttributes]
  split
  · cases s.binding x with
    | none =>
      simp only [Binding.change]
      split
      · rfl
      · split <;> rfl
    | some b =>
      simp only [Binding.change]
      split
      · rfl
      · split <;> rfl
  · rfl

/-- What a store leaves behind when it goes through. -/
theorem store_spec {s s' : State F} {options : UInt32} {x : Bytes} {n : ℤ}
    (h : store s options x n = (.ok, s')) : (s'.getVariable x).2.value = some (decimal n) := by
  have hx : validName x = true := by
    by_contra hx
    have hrefused : s.setVariable x (decimal n) = (.invalid, s) := if_pos (by simp [hx])
    rw [store, hrefused] at h
    cases h
  have hw : Binding.writable (s.binding x) = true := by
    cases hw : Binding.writable (s.binding x) with
    | true => rfl
    | false =>
      rw [store, State.setVariable_readonly hx hw] at h
      cases h
  have hvalue := State.value_setVariable hx hw (decimal n)
  rw [State.value_getVariable hx]
  unfold store at h
  rcases hset : s.setVariable x (decimal n) with ⟨result, s₁⟩
  rw [hset] at h hvalue
  cases result with
  | ok =>
    simp only at h
    split at h
    · have hupdate := value_updateAttributes (s := s₁) (x := x)
      rw [h] at hupdate
      rw [hupdate, hvalue]
    · cases h
      exact hvalue
  | _ => cases h

/-- A writable variable takes every number. -/
theorem store_writable {s : State F} {x : Bytes} (options : UInt32) (n : ℤ)
    (hx : validName x = true) (hw : Binding.writable (s.binding x) = true) :
    (store s options x n).1 = .ok := by
  have hset := State.setVariable_writable hx hw (decimal n)
  unfold store
  rcases hresult : s.setVariable x (decimal n) with ⟨result, s'⟩
  rw [hresult] at hset
  cases hset
  simp only
  split
  · exact State.updateAttributes_exported s' hx
  · rfl

/-- **The name of a variable that holds a printed number evaluates to the number.** -/
theorem arithEval_name {s : State F} (hs : s.Reachable) {x : Bytes} {n : ℤ}
    (hx : validName x = true) (hn : InLong n)
    (h : (s.getVariable x).2.value = some (decimal n)) : arithEval s x = ⟨.ok, some n, s⟩ := by
  rw [(arithEval_correct s hs x).1]
  cases x with
  | nil => cases hx
  | cons byte rest =>
    simp only [validName, Bool.and_eq_true, List.all_eq_true] at hx
    have hname : ∀ b ∈ byte :: rest, nameByte b = true := by
      intro b hb
      rcases List.mem_cons.mp hb with rfl | hb
      · simp [nameByte, hx.1]
      · exact hx.2 b hb
    have hdigit : digit byte = false := by
      have hall : ∀ byte : UInt8, nameStart byte = true → digit byte = false := by
        apply forall_byte
        decide +kernel
      exact hall byte hx.1
    have htokens : Tokenises (byte :: rest) [⟨.name, byte :: rest⟩] := by
      have hword := Tokenises.word (List.cons_ne_nil byte rest) hname (by simp) Tokenises.nil
      rw [List.append_nil] at hword
      rwa [show wordKind (byte :: rest) = .name by simp [wordKind, hdigit]] at hword
    -- a name is an operand, and so an expression of every level
    have hlevel : ∀ k, k ≤ 13 → Derives (14 - k) [⟨.name, byte :: rest⟩] (.var (byte :: rest)) := by
      intro k
      induction k with
      | zero =>
        intro _
        exact .name
      | succ k ih =>
        intro hk
        apply Derives.lift (by omega)
        rw [show 14 - (k + 1) + 1 = 14 - k by omega]
        exact ih (by omega)
    refine ⟨_, _, htokens, .inl (hlevel 13 le_rfl), ?_⟩
    have hread : read s (.var (byte :: rest)) = .ok n := by
      simp only [read, h]
      exact textValue_decimal hn
    simp only [eval, designate, force, hread, Except.map]

/-! ### Assignments -/

theorem reachable_storeValue {s s' : State F} (hs : s.Reachable) {x : Bytes} {n : ℤ} {o : Operand}
    (h : storeValue s x n = .ok (o, s')) : s'.Reachable := by
  have hstore := reachable_store hs s.info.options x n
  unfold storeValue at h
  rcases hresult : store s s.info.options x n with ⟨result, s₁⟩
  rw [hresult] at h hstore
  cases result <;> cases h
  exact hstore

theorem state_force {r : Except ArithResult (Operand × State F)} {n : ℤ} {s : State F}
    (h : force r = .ok (n, s)) : ∃ o, r = .ok (o, s) := by
  cases r with
  | error c => cases h
  | ok os =>
    obtain ⟨o, s'⟩ := os
    simp only [force] at h
    cases hread : read s' o with
    | error c =>
      rw [hread] at h
      cases h
    | ok m =>
      rw [hread] at h
      cases h
      exact ⟨o, rfl⟩

/-- Evaluation goes from one state of a shell to another. -/
theorem reachable_designate (e : Expr) : ∀ (s s' : State F) (o : Operand), s.Reachable →
    designate e s = .ok (o, s') → s'.Reachable := by
  -- the same for what is read at once
  have hforce : ∀ {e : Expr}, (∀ (s s' : State F) (o : Operand), s.Reachable →
      designate e s = .ok (o, s') → s'.Reachable) →
      ∀ {s s' : State F} {n : ℤ}, s.Reachable → force (designate e s) = .ok (n, s') →
        s'.Reachable := by
    intro e ih s s' n hs h
    obtain ⟨o, ho⟩ := state_force h
    exact ih s s' o hs ho
  induction e with
  | num m =>
    intro s s' o hs h
    cases h
    exact hs
  | var x =>
    intro s s' o hs h
    cases h
    exact hs
  | hole => intro s s' o hs h; cases h
  | stop e _ =>
    intro s s' o hs h
    obtain ⟨_, -, h⟩ := bind_ok h
    cases h
  | unary op e ih =>
    intro s s' o hs h
    obtain ⟨⟨o₁, s₁⟩, he, h⟩ := bind_ok h
    have hs₁ := ih s s₁ o₁ hs he
    simp only at h
    split at h
    · cases h
      exact hs₁
    · obtain ⟨_, -, h⟩ := bind_ok h
      obtain ⟨_, -, h⟩ := bind_ok h
      cases h
      exact hs₁
  | binary op l r ihl ihr =>
    intro s s' o hs h
    by_cases hand : op = .and
    · subst hand
      rw [designate_and] at h
      obtain ⟨⟨a, s₁⟩, hl, h⟩ := bind_ok h
      have hs₁ := hforce ihl hs hl
      simp only at h
      split at h
      · obtain ⟨_, -, h⟩ := bind_ok h
        cases h
        exact hs₁
      · obtain ⟨⟨b, s₂⟩, hr, h⟩ := bind_ok h
        cases h
        exact hforce ihr hs₁ hr
    · by_cases hor : op = .or
      · subst hor
        rw [designate_or] at h
        obtain ⟨⟨a, s₁⟩, hl, h⟩ := bind_ok h
        have hs₁ := hforce ihl hs hl
        simp only at h
        split at h
        · obtain ⟨_, -, h⟩ := bind_ok h
          cases h
          exact hs₁
        · obtain ⟨⟨b, s₂⟩, hr, h⟩ := bind_ok h
          cases h
          exact hforce ihr hs₁ hr
      · rw [designate_binary hand hor] at h
        obtain ⟨⟨a, s₁⟩, hl, h⟩ := bind_ok h
        obtain ⟨⟨b, s₂⟩, hr, h⟩ := bind_ok h
        obtain ⟨v, -, h⟩ := bind_ok h
        cases h
        exact hforce ihr (hforce ihl hs hl) hr
  | cond c a b ihc iha ihb =>
    intro s s' o hs h
    obtain ⟨⟨m, s₁⟩, hc, h⟩ := bind_ok h
    have hs₁ := hforce ihc hs hc
    simp only at h
    split at h
    · obtain ⟨⟨v, s₂⟩, ha, h⟩ := bind_ok h
      obtain ⟨_, -, h⟩ := bind_ok h
      cases h
      exact hforce iha hs₁ ha
    · obtain ⟨_, -, h⟩ := bind_ok h
      obtain ⟨⟨v, s₂⟩, hb, h⟩ := bind_ok h
      cases h
      exact hforce ihb hs₁ hb
  | assign op x e ih =>
    intro s s' o hs h
    by_cases hop : op = .assign
    · subst hop
      rw [designate_set] at h
      obtain ⟨⟨m, s₁⟩, he, h⟩ := bind_ok h
      exact reachable_storeValue (hforce ih hs he) h
    · rw [designate_update hop] at h
      obtain ⟨old, -, h⟩ := bind_ok h
      obtain ⟨⟨m, s₁⟩, he, h⟩ := bind_ok h
      obtain ⟨v, -, h⟩ := bind_ok h
      exact reachable_storeValue (hforce ih hs he) h

/-- An assignment ends with a store of its value. -/
theorem stored_of_assign {op : Token} {x : Bytes} {e : Expr} {s s' : State F} {n : ℤ}
    (h : eval (.assign op x e) s = .ok (n, s')) :
    InLong n ∧ ∃ s₁, store s₁ s₁.info.options x n = (.ok, s') := by
  have hn : InLong n := inLong_force (fun m s₁ => inLong_designate _ _ s₁ m) h
  refine ⟨hn, ?_⟩
  -- the value of the assignment is the number it stores
  have hstored : ∀ {s₁ : State F} {m : ℤ}, force (storeValue s₁ x m) = .ok (n, s') →
      store s₁ s₁.info.options x n = (.ok, s') := by
    intro s₁ m h
    unfold storeValue at h
    rcases hresult : store s₁ s₁.info.options x m with ⟨result, s₂⟩
    rw [hresult] at h
    cases result <;> cases h
    exact hresult
  have hbind : ∀ {α : Type} {r : Except ArithResult α} {f : α → Except ArithResult (Operand × State F)},
      force (r.bind f) = .ok (n, s') → ∃ a, r = .ok a ∧ force (f a) = .ok (n, s') := by
    intro α r f h
    cases r with
    | error c => cases h
    | ok a => exact ⟨a, rfl, h⟩
  unfold eval at h
  by_cases hop : op = .assign
  · subst hop
    rw [designate_set] at h
    obtain ⟨⟨m, s₁⟩, -, h⟩ := hbind h
    exact ⟨s₁, hstored h⟩
  · rw [designate_update hop] at h
    obtain ⟨old, -, h⟩ := hbind h
    obtain ⟨⟨m, s₁⟩, -, h⟩ := hbind h
    obtain ⟨v, -, h⟩ := hbind h
    exact ⟨s₁, hstored h⟩

/-- The outcome of a text is the one of its tree. -/
theorem eval_of_arithEval {s s' : State F} (hs : s.Reachable) {text : Bytes} {ts : List Tok}
    {e : Expr} {n : ℤ} (htokens : Tokenises text ts) (he : Derives 1 ts e)
    (h : arithEval s text = ⟨.ok, some n, s'⟩) : eval e s = .ok (n, s') := by
  have hreading : Reading (tokens text) e := by
    rw [← tokenises_iff.mp htokens]
    exact .complete he
  have hrun := run_of_reading (s := s) hreading
  unfold arithEval at h
  rw [hs.save_eq] at h
  simp only [show ({ next := text, state := s, options := s.info.options } : Parser F)
    = startParser s text from rfl] at h
  cases hv : eval e s with
  | error c =>
    rw [hv] at hrun
    obtain ⟨p, m, hp, herr, hc⟩ := hrun
    rw [← herr] at hc
    simp only [hp, if_neg hc] at h
    exact absurd (congrArg Outcome.result h) hc
  | ok vs =>
    obtain ⟨v, s₁⟩ := vs
    rw [hv] at hrun
    obtain ⟨p, hp, herr, hst⟩ := hrun
    simp only [hp, herr, if_true, hst] at h
    cases h
    rfl

/-- **Numbers survive the way through a text.** `literal` accepts exactly the decimal, octal
and hexadecimal constants and says on which side of `2^63` the value lies, with no step
of its loop wrapping around.  A writable variable takes every `long`, and after an
assignment to it, by the code of `assign` or by the text of an expression, its name
evaluates to the number that was assigned. -/
theorem integer_round_trip :
    (∀ text v, literal text = some v ↔ ∃ n, Denotes text n ∧ v = classify n) ∧
    (∀ n : ℕ, (classify n).name = none ∧ ((n : ℤ) ≤ longMax ↔ (classify n).high = 0) ∧
      ((n : ℤ) ≤ longMax → (classify n).number = n) ∧
      ((classify n).high = 1 ↔ n = 2 ^ 63) ∧ ((classify n).high = 2 ↔ 2 ^ 63 < n)) ∧
    (∀ text base digits, literalBase text = some (base, digits) →
      (literalWords base.toUInt64 digits 0 false).map (fun r => (r.1.toNat, r.2)) =
        literalLoop base digits 0 false) ∧
    (∀ (p : Parser F) (x : Bytes) (n : ℤ), p.state.Reachable → p.error = .ok →
      p.options = p.state.info.options → validName x = true →
      Binding.writable (p.state.binding x) = true → InLong n →
      (assign p x n).error = .ok ∧
        arithEval (assign p x n).state x = ⟨.ok, some n, (assign p x n).state⟩) ∧
    (∀ (s s' : State F) (text : Bytes) (ts : List Tok) (op : Token) (x : Bytes) (e : Expr) (n : ℤ),
      s.Reachable → Tokenises text ts → Derives 1 ts (.assign op x e) → validName x = true →
      arithEval s text = ⟨.ok, some n, s'⟩ → arithEval s' x = ⟨.ok, some n, s'⟩) := by
  refine ⟨literal_iff, classify_spec, ?_, ?_, ?_⟩
  · intro text base digits hbase
    have hbounds := literalBase_bounds hbase
    have hword : base.toUInt64.toNat = base := by
      simp only [Nat.toUInt64, UInt64.toNat_ofNat']
      omega
    have h := literalWords_eq base.toUInt64 (by rwa [hword]) digits 0 false (by decide)
    rwa [hword] at h
  · intro p x n hs herror hoptions hx hw hn
    have hok := store_writable p.options n hx hw
    have hreach := reachable_store hs p.options x n
    unfold assign
    rcases hstore : store p.state p.options x n with ⟨result, s'⟩
    rw [hstore] at hok hreach
    cases hok
    exact ⟨herror, arithEval_name hreach hx hn (store_spec hstore)⟩
  · intro s s' text ts op x e n hs htokens he hx h
    have heval := eval_of_arithEval hs htokens he h
    obtain ⟨hn, s₁, hstore⟩ := stored_of_assign heval
    have hreach : s'.Reachable := by
      obtain ⟨o, ho⟩ := state_force heval
      exact reachable_designate _ s s' o hs ho
    exact arithEval_name hreach hx hn (store_spec hstore)

/-- The minimum, whose magnitude is no `long`, in a fresh shell. -/
theorem integer_round_trip_min : ∃ p : Parser Unit,
    (assign p (ascii "x") longMin).error = .ok ∧
      arithEval (assign p (ascii "x") longMin).state (ascii "x") =
        ⟨.ok, some longMin, (assign p (ascii "x") longMin).state⟩ := by
  let p : Parser Unit := { next := [], state := .create [] [] [] 1 .stdin 0 false }
  have hmin : InLong longMin := by
    constructor <;> decide
  exact ⟨p, integer_round_trip.2.2.2.1 p (ascii "x") longMin (.create ..) rfl (by decide) (by decide)
    (by decide) hmin⟩

end Arithmetic
end CShell
