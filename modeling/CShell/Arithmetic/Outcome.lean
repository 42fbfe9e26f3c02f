import CShell.Arithmetic.Stepping

/-!
# Outcomes of syntax trees

The evaluation of a tree, executed or not, in the form in which the recursion
computes it: operand by operand, each read where its value is needed.

## Main definitions

* `outcome execute e s` — the outcome of a tree that is or is not executed.
* `outcomeRead execute e s` — the same, with the value read.

## Main results

* `inLong_designate` — every value fits a `long`.
* `outcome_binary`, `outcome_cond`, `outcome_assign`, `outcome_stop` — the outcome of
  a tree from those of its parts.
* `outcome_of_holed` — **a tree that could not be read to its end fails.**
-/

namespace CShell
namespace Arithmetic

variable {F : Type}

/-! ### Outcomes -/

/-- A tree that is not executed is only checked. -/
def outcome (execute : Bool) (e : Expr) (s : State F) : Except ArithResult (Operand × State F) :=
  if execute then designate e s else (skip e).map fun _ => (.value 0, s)

/-- The same, with the value read. -/
def outcomeRead (execute : Bool) (e : Expr) (s : State F) : Except ArithResult (ℤ × State F) :=
  if execute then force (designate e s) else (skip e).map fun _ => (0, s)

@[simp] theorem outcome_true (e : Expr) (s : State F) : outcome true e s = designate e s := rfl

@[simp] theorem outcome_false (e : Expr) (s : State F) :
    outcome false e s = (skip e).map fun _ => (.value 0, s) := rfl

@[simp] theorem outcomeRead_true (e : Expr) (s : State F) :
    outcomeRead true e s = force (designate e s) := rfl

@[simp] theorem outcomeRead_false (e : Expr) (s : State F) :
    outcomeRead false e s = (skip e).map fun _ => (0, s) := rfl

/-- Reading after the outcome. -/
theorem outcomeRead_eq (execute : Bool) (e : Expr) (s : State F) :
    outcomeRead execute e s = match outcome execute e s with
      | .error c => .error c
      | .ok (o, s') => if execute then (read s' o).map fun n => (n, s') else .ok (0, s') := by
  cases execute with
  | true =>
    rw [outcomeRead_true, outcome_true]
    cases designate e s <;> rfl
  | false =>
    rw [outcomeRead_false, outcome_false]
    cases skip e <;> rfl

theorem skip_binary (op : Token) (l r : Expr) :
    skip (.binary op l r) = (skip l).bind fun _ => skip r := by
  cases hl : l.holed <;> simp [skip, Expr.holed, hl, Except.bind]

theorem skip_cond (c a b : Expr) :
    skip (.cond c a b) = (skip c).bind fun _ => (skip a).bind fun _ => skip b := by
  cases hc : c.holed <;> cases ha : a.holed <;> simp [skip, Expr.holed, hc, ha, Except.bind]

/-! ### Every value fits a `long` -/

theorem inLong_force {r : Except ArithResult (Operand × State F)} {n : ℤ} {s : State F}
    (hr : ∀ m s', r = .ok (.value m, s') → InLong m) (h : force r = .ok (n, s)) : InLong n := by
  cases r with
  | error c => cases h
  | ok os =>
    obtain ⟨o, s'⟩ := os
    simp only [force] at h
    cases hread : read s' o with
    | error c => rw [hread] at h; cases h
    | ok m =>
      rw [hread] at h
      cases h
      exact inLong_read (fun m' hm => hr m' s (by rw [hm])) hread

theorem bind_ok {ε α β : Type} {x : Except ε α} {f : α → Except ε β} {b : β}
    (h : x.bind f = .ok b) : ∃ a, x = .ok a ∧ f a = .ok b := by
  cases x with
  | error e => cases h
  | ok a => exact ⟨a, rfl, h⟩

theorem designate_and (l r : Expr) (s : State F) : designate (.binary .and l r) s =
    (force (designate l s)).bind fun as =>
      if as.1 = 0 then (skip r).bind fun _ => .ok (.value 0, as.2)
      else (force (designate r as.2)).bind fun bs => .ok (.value (truth (bs.1 ≠ 0)), bs.2) := rfl

theorem designate_or (l r : Expr) (s : State F) : designate (.binary .or l r) s =
    (force (designate l s)).bind fun as =>
      if as.1 ≠ 0 then (skip r).bind fun _ => .ok (.value 1, as.2)
      else (force (designate r as.2)).bind fun bs => .ok (.value (truth (bs.1 ≠ 0)), bs.2) := rfl

variable {op : Token} {c : ArithResult}

theorem designate_binary (hand : op ≠ .and) (hor : op ≠ .or) (l r : Expr)
    (s : State F) : designate (.binary op l r) s =
      (force (designate l s)).bind fun as => (force (designate r as.2)).bind fun bs =>
        (arith op as.1 bs.1).bind fun v => .ok (.value v, bs.2) := by
  cases op <;> first | rfl | exact absurd rfl hand | exact absurd rfl hor

theorem designate_set (x : Bytes) (e : Expr) (s : State F) : designate (.assign .assign x e) s =
    (force (designate e s)).bind fun ns => storeValue ns.2 x ns.1 := rfl

theorem designate_update (hop : op ≠ .assign) (x : Bytes) (e : Expr) (s : State F) :
    designate (.assign op x e) s =
      (read s (.var x)).bind fun old => (force (designate e s)).bind fun ns =>
        (arith (assignmentOperation op) old ns.1).bind fun v => storeValue ns.2 x v := by
  cases op <;> first | rfl | exact absurd rfl hop

theorem inLong_designate (e : Expr) : ∀ (s s' : State F) (n : ℤ),
    designate e s = .ok (.value n, s') → InLong n := by
  induction e with
  | num m => intro s s' n h; cases h
  | var x => intro s s' n h; cases h
  | hole => intro s s' n h; cases h
  | stop e _ =>
    intro s s' n h
    obtain ⟨_, -, h⟩ := bind_ok h
    cases h
  | unary op e ih =>
    intro s s' n h
    obtain ⟨⟨o, s₁⟩, he, h⟩ := bind_ok h
    simp only at h
    split at h
    · cases h; constructor <;> decide
    · obtain ⟨a, ha, h⟩ := bind_ok h
      obtain ⟨v, hv, h⟩ := bind_ok h
      cases h
      exact inLong_unaryArith (inLong_read (fun m hm => ih _ _ m (hm ▸ he)) ha) hv
  | binary op l r ihl ihr =>
    intro s s' n h
    by_cases hand : op = .and
    · subst hand
      rw [designate_and] at h
      obtain ⟨⟨a, s₁⟩, -, h⟩ := bind_ok h
      simp only at h
      split at h
      · obtain ⟨_, -, h⟩ := bind_ok h
        cases h; exact inLong_zero
      · obtain ⟨⟨b, s₂⟩, -, h⟩ := bind_ok h
        cases h; exact inLong_truth _
    by_cases hor : op = .or
    · subst hor
      rw [designate_or] at h
      obtain ⟨⟨a, s₁⟩, -, h⟩ := bind_ok h
      simp only at h
      split at h
      · obtain ⟨_, -, h⟩ := bind_ok h
        cases h; exact inLong_truth true
      · obtain ⟨⟨b, s₂⟩, -, h⟩ := bind_ok h
        cases h; exact inLong_truth _
    · rw [designate_binary hand hor] at h
      obtain ⟨⟨a, s₁⟩, hl, h⟩ := bind_ok h
      obtain ⟨⟨b, s₂⟩, hr, h⟩ := bind_ok h
      obtain ⟨v, hv, h⟩ := bind_ok h
      cases h
      exact inLong_arith (inLong_force (fun m s' => ihl _ s' m) hl)
        (inLong_force (fun m s' => ihr _ s' m) hr) hv
  | cond c a b ihc iha ihb =>
    intro s s' n h
    obtain ⟨⟨m, s₁⟩, -, h⟩ := bind_ok h
    simp only at h
    split at h
    · obtain ⟨⟨v, s₂⟩, ha, h⟩ := bind_ok h
      obtain ⟨_, -, h⟩ := bind_ok h
      cases h
      exact inLong_force (fun m s' => iha _ s' m) ha
    · obtain ⟨_, -, h⟩ := bind_ok h
      obtain ⟨⟨v, s₂⟩, hb, h⟩ := bind_ok h
      cases h
      exact inLong_force (fun m s' => ihb _ s' m) hb
  | assign op x e ih =>
    intro s s' n h
    by_cases hop : op = .assign
    · subst hop
      rw [designate_set] at h
      obtain ⟨⟨m, s₁⟩, he, h⟩ := bind_ok h
      cases storeValue_operand h
      exact inLong_force (fun m s' => ih _ s' m) he
    · rw [designate_update hop] at h
      obtain ⟨old, hold, h⟩ := bind_ok h
      obtain ⟨⟨m, s₁⟩, he, h⟩ := bind_ok h
      obtain ⟨v, hv, h⟩ := bind_ok h
      cases storeValue_operand h
      exact inLong_arith (inLong_read (fun m hm => by cases hm) hold)
        (inLong_force (fun m s' => ih _ s' m) he) hv

/-! ### Outcomes of the compound trees -/

theorem outcome_binary (execute : Bool) (l r : Expr) (s : State F) :
    outcome execute (.binary op l r) s =
      match outcomeRead execute l s with
      | .error c => .error c
      | .ok (a, s₁) =>
        match outcomeRead (rightExecute execute op a) r s₁ with
        | .error c => .error c
        | .ok (b, s₂) =>
          if execute then (computed (compute op a b)).map fun v => (.value v, s₂)
          else .ok (.value 0, s₂) := by
  cases execute with
  | false =>
    simp only [outcome_false, outcomeRead_false, skip_binary, rightExecute, Bool.false_and]
    cases skip l with
    | error c => rfl
    | ok u => cases skip r <;> rfl
  | true =>
    simp only [outcome_true, outcomeRead_true, if_true]
    by_cases hand : op = .and
    · -- `&&` evaluates its right operand only after a true one
      subst hand
      rw [designate_and]
      cases hl : force (designate l s) with
      | error c => rfl
      | ok as =>
        obtain ⟨a, s₁⟩ := as
        by_cases h0 : a = 0
        · subst h0
          have hx : rightExecute true .and 0 = false := rfl
          simp only [Except.bind, if_true, hx, outcomeRead_false]
          cases skip r <;> rfl
        · have hx : rightExecute true .and a = true := by simp [rightExecute, h0]
          simp only [Except.bind, h0, if_false, hx, outcomeRead_true]
          cases force (designate r s₁) with
          | error c => rfl
          | ok bs => simp [computed, compute_and, h0, Except.map]
    by_cases hor : op = .or
    · -- `||` only after a false one
      subst hor
      rw [designate_or]
      cases hl : force (designate l s) with
      | error c => rfl
      | ok as =>
        obtain ⟨a, s₁⟩ := as
        by_cases h0 : a = 0
        · subst h0
          have hx : rightExecute true .or 0 = true := rfl
          simp only [Except.bind, ne_eq, not_true_eq_false, if_false, hx, outcomeRead_true]
          cases force (designate r s₁) with
          | error c => rfl
          | ok bs => simp [computed, compute_or, Except.map]
        · have hx : rightExecute true .or a = false := by simp [rightExecute, h0]
          simp only [Except.bind, ne_eq, h0, not_false_eq_true, if_true, hx, outcomeRead_false]
          cases skip r with
          | error c => rfl
          | ok u => simp [computed, compute_or, h0, Except.map, truth]
    · have hx : ∀ a, rightExecute true op a = true := by
        intro a
        simp only [rightExecute, Bool.true_and]
        rw [beq_eq_false_iff_ne.mpr hand, beq_eq_false_iff_ne.mpr hor]
        rfl
      rw [designate_binary hand hor]
      cases hl : force (designate l s) with
      | error c => rfl
      | ok as =>
        obtain ⟨a, s₁⟩ := as
        have ha := inLong_force (fun m s' => inLong_designate l _ s' m) hl
        simp only [Except.bind, hx, outcomeRead_true]
        cases hr : force (designate r s₁) with
        | error c => rfl
        | ok bs =>
          obtain ⟨b, s₂⟩ := bs
          have hb := inLong_force (fun m s' => inLong_designate r _ s' m) hr
          simp only [compute_eq ha hb hand hor]
          cases arith op a b <;> rfl

theorem outcome_cond (execute : Bool) (c a b : Expr) (s : State F) :
    outcome execute (.cond c a b) s =
      match outcomeRead execute c s with
      | .error e => .error e
      | .ok (n, s₁) =>
        match outcomeRead (execute && n != 0) a s₁ with
        | .error e => .error e
        | .ok (v, s₂) =>
          match outcomeRead (execute && n == 0) b s₂ with
          | .error e => .error e
          | .ok (w, s₃) => .ok (.value (if n ≠ 0 then v else w), s₃) := by
  cases execute with
  | false =>
    simp only [outcome_false, outcomeRead_false, skip_cond, Bool.false_and]
    cases skip c with
    | error e => rfl
    | ok u =>
      cases skip a with
      | error e => rfl
      | ok u => cases skip b <;> rfl
  | true =>
    simp only [outcome_true, outcomeRead_true, designate, Bool.true_and]
    cases hc : force (designate c s) with
    | error e => rfl
    | ok ns =>
      obtain ⟨n, s₁⟩ := ns
      by_cases h0 : n = 0
      · subst h0
        simp only [bne_self_eq_false, outcomeRead_false, beq_self_eq_true, outcomeRead_true]
        cases ha : skip a with
        | error e => simp [bind, Except.bind, Except.map]
        | ok u =>
          cases hb : force (designate b s₁) <;> simp [bind, Except.bind, Except.map, hb]
      · have h1 : (n != 0) = true := by simpa using h0
        have h2 : (n == 0) = false := by simpa using h0
        simp only [h1, h2, outcomeRead_true, outcomeRead_false]
        cases ha : force (designate a s₁) with
        | error e => simp [bind, Except.bind, h0, ha]
        | ok vs => cases skip b <;> simp [bind, Except.bind, Except.map, h0, ha]

theorem outcome_assign (execute : Bool) (op : Token) (x : Bytes) (e : Expr) (s : State F) :
    outcome execute (.assign op x e) s =
      match (if op = .assign ∨ execute = false then .ok 0 else read s (.var x)) with
      | .error c => .error c
      | .ok old =>
        match outcomeRead execute e s with
        | .error c => .error c
        | .ok (n, s₁) =>
          if execute then
            match (if op = .assign then .ok n
              else computed (compute (assignmentOperation op) old n)) with
            | .error c => .error c
            | .ok v => storeValue s₁ x v
          else .ok (.value 0, s₁) := by
  cases execute with
  | false =>
    simp only [outcome_false, outcomeRead_false, or_true, if_true, Bool.false_eq_true, if_false]
    have : skip (.assign op x e) = skip e := rfl
    rw [this]
    cases skip e <;> rfl
  | true =>
    simp only [outcome_true, outcomeRead_true, Bool.true_eq_false, or_false, if_true]
    by_cases hop : op = .assign
    · subst hop
      rw [designate_set]
      simp only [if_true]
      cases force (designate e s) <;> rfl
    · rw [designate_update hop, if_neg hop]
      cases hold : read s (.var x) with
      | error c => rfl
      | ok old =>
        have hlong := inLong_read (fun m hm => by cases hm) hold
        cases he : force (designate e s) with
        | error c => rfl
        | ok ns =>
          obtain ⟨n, s₁⟩ := ns
          have hn := inLong_force (fun m s' => inLong_designate e _ s' m) he
          have hand : assignmentOperation op ≠ .and := by cases op <;> decide
          have hor : assignmentOperation op ≠ .or := by cases op <;> decide
          simp only [Except.bind, hop, if_false, compute_eq hlong hn hand hor]
          cases arith (assignmentOperation op) old n <;> rfl

/-! ### Failures are failures -/

theorem fit_error {n : ℤ} (h : fit n = .error c) : c ≠ .ok := by
  unfold fit at h
  split at h <;> cases h
  decide

theorem read_error {s : State F} {o : Operand} (h : read s o = .error c) :
    c ≠ .ok := by
  have key : ∀ negative digits, signedConstant negative digits = .error c → c ≠ .ok := by
    intro negative digits h
    unfold signedConstant at h
    split at h
    · cases h; decide
    · exact fit_error h
  cases o with
  | value n => cases h
  | num n => exact fit_error h
  | var x =>
    simp only [read] at h
    split at h
    · split at h <;> cases h
      decide
    · unfold textValue at h
      split at h
      · cases h
      · split at h
        · exact key _ _ h
        · split at h <;> exact key _ _ h

/-! ### Unary operators -/

theorem designate_unary (op : Token) (e : Expr) (s : State F) : designate (.unary op e) s =
    (designate e s).bind fun os =>
      (if op = .sub ∧ os.1 = .num (2 ^ 63) then .ok longMin
        else (read os.2 os.1).bind (unaryArith op)).map fun v => (.value v, os.2) := by
  rw [designate]
  cases designate e s with
  | error c => rfl
  | ok os =>
    obtain ⟨o, s'⟩ := os
    simp only [bind, Except.bind]
    split
    · rfl
    · cases read s' o with
      | error c => rfl
      | ok n => cases unaryArith op n <;> rfl

theorem designate_unary_of_ok {e : Expr} {s s' : State F} {o : Operand}
    (h : designate e s = .ok (o, s')) : designate (.unary op e) s =
      (if op = .sub ∧ o = .num (2 ^ 63) then .ok longMin
        else (read s' o).bind (unaryArith op)).map fun v => (.value v, s') := by
  rw [designate_unary, h]
  rfl

theorem unaryArith_error {n : ℤ} (h : unaryArith op n = .error c) :
    c ≠ .ok := by
  cases op <;> simp only [unaryArith] at h
  case sub => exact fit_error h
  all_goals cases h

/-! ### Trees that could not be read -/

theorem force_error {r : Except ArithResult (Operand × State F)}
    (h : r = .error c) : force r = .error c := by
  rw [h]; rfl

theorem skip_of_holed {e : Expr} (h : e.holed = true) : skip e = .error .syntaxError := by
  simp [skip, h]

/-- A holed tree fails, executed or not. -/
theorem outcome_of_holed {e : Expr} (h : e.holed = true) (execute : Bool) (s : State F) :
    ∃ c, outcome execute e s = .error c := by
  -- executed operands fail by induction, skipped ones by definition
  have hread : ∀ {e : Expr} {s : State F} x, e.holed = true →
      (∃ c, designate e s = .error c) → ∃ c, outcomeRead x e s = .error c := by
    intro e s x he hd
    cases x with
    | true => exact hd.imp fun c hc => force_error hc
    | false => exact ⟨_, by rw [outcomeRead_false, skip_of_holed he]; rfl⟩
  have key : ∀ (e : Expr) (s : State F), e.holed = true → ∃ c, designate e s = .error c := by
    intro e
    induction e with
    | num n => intro s h; cases h
    | var x => intro s h; cases h
    | hole => intro s _; exact ⟨_, rfl⟩
    | stop e _ =>
      intro s _
      cases hd : designate e s with
      | error c => exact ⟨c, by simp [designate, hd, bind, Except.bind]⟩
      | ok os => exact ⟨.syntaxError, by simp [designate, hd, bind, Except.bind]⟩
    | unary op e ih =>
      intro s h
      obtain ⟨c, hc⟩ := ih s h
      exact ⟨c, by rw [designate_unary, hc]; rfl⟩
    | binary op l r ihl ihr =>
      intro s h
      rw [← outcome_true, outcome_binary]
      simp only [Expr.holed, Bool.or_eq_true] at h
      cases hl : outcomeRead true l s with
      | error c => exact ⟨c, rfl⟩
      | ok as =>
        rcases h with h | h
        · obtain ⟨c, hc⟩ := hread true h (ihl s h)
          rw [hl] at hc
          cases hc
        · obtain ⟨c, hc⟩ := hread (rightExecute true op as.1) h (ihr as.2 h)
          exact ⟨c, by simp only [hc]⟩
    | cond c a b ihc iha ihb =>
      intro s h
      rw [← outcome_true, outcome_cond]
      simp only [Expr.holed, Bool.or_eq_true] at h
      cases hc : outcomeRead true c s with
      | error e => exact ⟨e, rfl⟩
      | ok ns =>
        simp only
        cases ha : outcomeRead (true && ns.1 != 0) a ns.2 with
        | error e => exact ⟨e, rfl⟩
        | ok vs =>
          rcases h with (h | h) | h
          · obtain ⟨e, he⟩ := hread true h (ihc s h)
            rw [hc] at he
            cases he
          · obtain ⟨e, he⟩ := hread (true && ns.1 != 0) h (iha ns.2 h)
            rw [ha] at he
            cases he
          · obtain ⟨e, he⟩ := hread (true && ns.1 == 0) h (ihb vs.2 h)
            exact ⟨e, by simp only [he]⟩
    | assign op x e ih =>
      intro s h
      rw [← outcome_true, outcome_assign]
      cases (if op = .assign ∨ true = false then .ok 0 else read s (.var x)) with
      | error c => exact ⟨c, rfl⟩
      | ok old =>
        obtain ⟨c, hc⟩ := hread (e := e) true h (ih s h)
        exact ⟨c, by simp only [hc]⟩
  cases execute with
  | true => exact key e s h
  | false => exact ⟨_, by rw [outcome_false, skip_of_holed h]; rfl⟩

theorem outcome_stop (execute : Bool) (e : Expr) (s : State F) :
    outcome execute (.stop e) s = match outcome execute e s with
      | .error c => .error c
      | .ok _ => .error .syntaxError := by
  cases execute with
  | false =>
    simp only [outcome_false]
    have : skip (.stop e) = .error .syntaxError := rfl
    rw [this]
    cases he : e.holed <;> simp [skip, he, Except.map]
  | true =>
    simp only [outcome_true, designate, bind, Except.bind]
    cases designate e s <;> rfl

/-- Only a name designates a variable. -/
theorem name_of_target {e : Expr} {s s' : State F} {o : Operand} (he : e.target = none)
    (h : designate e s = .ok (o, s')) : o.toValue.name = none := by
  have hval : ∀ {n : ℤ}, o = .value n → o.toValue.name = none := by rintro n rfl; rfl
  cases e with
  | num n => cases h; rfl
  | var x => cases he
  | hole => cases h
  | stop e =>
    obtain ⟨_, -, h⟩ := bind_ok h
    cases h
  | unary op e =>
    rw [designate_unary] at h
    obtain ⟨⟨o', s₁⟩, -, h⟩ := bind_ok h
    simp only at h
    split at h
    · cases h; rfl
    · cases hr : (read s₁ o').bind (unaryArith op) with
      | error c => rw [hr] at h; cases h
      | ok n => rw [hr] at h; cases h; rfl
  | binary op l r =>
    rw [← outcome_true, outcome_binary] at h
    split at h
    · cases h
    · split at h
      · cases h
      · next a _ _ _ b s₂ _ =>
        cases hc : computed (compute op a b) with
        | error c => rw [hc] at h; cases h
        | ok n => rw [hc] at h; cases h; rfl
  | cond c a b =>
    rw [← outcome_true, outcome_cond] at h
    split at h
    · cases h
    · split at h
      · cases h
      · split at h
        · cases h
        · cases h; rfl
  | assign op x e =>
    rw [← outcome_true, outcome_assign] at h
    split at h
    · cases h
    · split at h
      · cases h
      · simp only [if_true] at h
        split at h
        · cases h
        · exact hval (storeValue_operand h)

end Arithmetic
end CShell
