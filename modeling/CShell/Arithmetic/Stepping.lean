import CShell.Lib.Fuel
import CShell.Arithmetic.Values

/-!
# Stepping through the evaluator

Fuel-free rules for `primary`, `expression` and `climb`.  More fuel never changes
an answer, so each rule says what a call returns on some fuel from what its inner
calls return; and the fuel `csh_arith_eval` is given is enough, since every call
is made with a token less to read.

## Main definitions

* `stream p` — the tokens still to be read, the current one included.
* `At p ts` — the parser `p` is live and has the tokens `ts` before it.

## Main results

* `expression_mono`, `climb_mono`, `primary_mono` — more fuel, same answer.
* `expression_returns`, `climb_binary`, `climb_cond`, `climb_assign` and so on — the rules.
* `expression_enough` — **fuel linear in the text always suffices.**
-/

namespace CShell
namespace Arithmetic

open Fuel

variable {F : Type}

/-! ### More fuel, same answer -/

theorem mono_all (n : ℕ) :
    (∀ (p : Parser F) execute, Le (primary n p execute) (primary (n + 1) p execute)) ∧
    (∀ (p : Parser F) minimum execute,
      Le (expression n p minimum execute) (expression (n + 1) p minimum execute)) ∧
    (∀ (p : Parser F) left minimum execute,
      Le (climb n p left minimum execute) (climb (n + 1) p left minimum execute)) := by
  induction n with
  | zero =>
    refine ⟨fun p execute => ?_, fun p minimum execute => ?_, fun p left minimum execute => ?_⟩
    · rw [primary]; exact Le.none _
    · rw [expression]; exact Le.none _
    · rw [climb]; exact Le.none _
  | succ n ih =>
    obtain ⟨ihp, ihe, ihc⟩ := ih
    refine ⟨fun p execute => ?_, fun p minimum execute => ?_, fun p left minimum execute => ?_⟩
    · unfold primary
      split
      · exact Le.refl _
      · exact Le.refl _
      · exact Le.bind (ihe _ _ _) fun _ => Le.refl _
      · refine Le.ite (Le.bind (ihe _ _ _) fun _ => Le.refl _) (Le.refl _)
    · unfold expression
      exact Le.ite (Le.refl _) (Le.bind (ihp _ _) fun _ => ihc _ _ _ _)
    · unfold climb
      refine Le.ite ?_ (Le.refl _)
      refine Le.ite (Le.refl _) ?_
      refine Le.ite ?_ ?_
      · refine Le.bind (ihe _ _ _) fun _ => ?_
        refine Le.ite (Le.refl _) (Le.ite (Le.refl _) ?_)
        exact Le.bind (ihe _ _ _) fun _ => ihc _ _ _ _
      · refine Le.bind (ihe _ _ _) fun _ => ?_
        exact Le.ite (Le.ite (ihc _ _ _ _) (ihc _ _ _ _)) (ihc _ _ _ _)

theorem primary_mono (p : Parser F) (execute : Bool) : Mono fun n => primary n p execute :=
  fun n => (mono_all n).1 p execute

theorem expression_mono (p : Parser F) (minimum : ℕ) (execute : Bool) :
    Mono fun n => expression n p minimum execute :=
  fun n => (mono_all n).2.1 p minimum execute

theorem climb_mono (p : Parser F) (left : Value) (minimum : ℕ) (execute : Bool) :
    Mono fun n => climb n p left minimum execute :=
  fun n => (mono_all n).2.2 p left minimum execute

/-! ### Rules for `expression` and `primary` -/

variable {execute : Bool} {minimum : ℕ} {p : Parser F} {q r : Parser F × Value} {left : Value}

theorem expression_returns (he : p.error = .ok)
    (h₁ : Returns (fun n => primary n p execute) q)
    (h₂ : Returns (fun n => climb n q.1 q.2 minimum execute) r) :
    Returns (fun n => expression n p minimum execute) r := by
  refine Returns.succ (Returns.bind (primary_mono p execute)
    (fun q => climb_mono q.1 q.2 minimum execute) h₁ h₂) fun n => ?_
  simp only [expression]
  rw [if_neg (by simp [he])]

/-- An expression is not even looked at after an error. -/
theorem expression_of_error (he : p.error ≠ .ok) (minimum : ℕ) (execute : Bool) :
    Returns (fun n => expression n p minimum execute) (p, {}) :=
  ⟨1, by simp [expression, he]⟩

theorem primary_number (ht : p.token = .number) (execute : Bool) {v : Value}
    (hv : literal p.lexeme = some v) :
    Returns (fun n => primary n p execute) (nextToken p, v) :=
  ⟨1, by simp [primary, ht, hv]⟩

theorem primary_number_bad (ht : p.token = .number) (execute : Bool)
    (hv : literal p.lexeme = none) :
    Returns (fun n => primary n p execute) (nextToken { p with error := .syntaxError }, {}) :=
  ⟨1, by simp [primary, ht, hv]⟩

theorem primary_name (ht : p.token = .name) (execute : Bool) :
    Returns (fun n => primary n p execute) (nextToken p, { name := some p.lexeme }) :=
  ⟨1, by simp [primary, ht]⟩

theorem primary_paren (ht : p.token = .lparen)
    (h : Returns (fun n => expression n (nextToken p) 1 execute) q) :
    Returns (fun n => primary n p execute)
      (if q.1.error = .ok then
        if q.1.token ≠ .rparen then (reject q.1, q.2) else (nextToken q.1, q.2)
      else q) := by
  obtain ⟨n, hn⟩ := h
  refine ⟨n + 1, ?_⟩
  simp only [primary, ht, hn, Option.bind_eq_bind, Option.bind_some]
  split
  · split <;> rfl
  · rfl

theorem primary_unary (ht : unaryToken p.token = true)
    (h : Returns (fun n => expression n (nextToken p) 14 execute) q) :
    Returns (fun n => primary n p execute) (applyUnary q.1 p.token q.2 execute) := by
  obtain ⟨n, hn⟩ := h
  refine ⟨n + 1, ?_⟩
  cases hp : p.token <;> rw [hp] at ht <;> cases ht
  all_goals
    simp only [primary, hp, unaryToken, if_true, hn, Option.bind_eq_bind, Option.bind_some]

theorem primary_other (hnum : p.token ≠ .number) (hname : p.token ≠ .name)
    (hparen : p.token ≠ .lparen) (hunary : unaryToken p.token = false) (execute : Bool) :
    Returns (fun n => primary n p execute) (reject p, {}) := by
  refine ⟨1, ?_⟩
  cases hp : p.token <;> rw [hp] at hnum hname hparen hunary <;>
    first | exact absurd rfl hnum | exact absurd rfl hname | exact absurd rfl hparen |
      (simp [primary, hp, unaryToken]; done) | cases hunary

/-! ### Rules for the loop -/

theorem climb_done (h : ¬ (p.error = .ok ∧ minimum ≤ precedence p.token)) :
    Returns (fun n => climb n p left minimum execute) (p, left) :=
  ⟨1, by simp only [climb, h, if_false]⟩

theorem climb_of_error (he : p.error ≠ .ok) (left : Value) (minimum : ℕ)
    (execute : Bool) : Returns (fun n => climb n p left minimum execute) (p, left) :=
  climb_done fun h => he h.1

theorem climb_target
    (he : p.error = .ok) (hm : minimum ≤ precedence p.token) (h2 : precedence p.token = 2)
    (hl : left.name = none) :
    Returns (fun n => climb n p left minimum execute)
      ({ nextToken p with error := .syntaxError }, left) := by
  refine ⟨1, ?_⟩
  simp only [climb, he, h2, hl, and_self, if_true, true_and]
  rw [if_pos (h2 ▸ hm)]

/-- Whether the right operand of a binary operator is executed. -/
def rightExecute (execute : Bool) (op : Token) (lhs : ℤ) : Bool :=
  execute && !(op == .and && lhs == 0) && !(op == .or && lhs != 0)

/-- The loop at a binary operator. -/
theorem climb_binary {op : Token}
    {p₁ p₂ : Parser F} {lhs rhs : ℤ}
    (he : p.error = .ok) (htok : p.token = op) (hm : minimum ≤ precedence op)
    (h2 : precedence op ≠ 2) (h3 : op ≠ .question)
    (hread : readValue (nextToken p) left execute = (p₁, lhs))
    (hright : Returns (fun n => expression n p₁ (precedence op + 1)
      (rightExecute execute op lhs)) q)
    (hread' : readValue q.1 q.2 (rightExecute execute op lhs) = (p₂, rhs))
    (hrest : Returns (fun n => if execute = true ∧ p₂.error = .ok then
        climb n (operation p₂ op lhs rhs).1 { number := (operation p₂ op lhs rhs).2 }
          minimum execute
      else climb n p₂ {} minimum execute) r) :
    Returns (fun n => climb n p left minimum execute) r := by
  subst htok
  have hna : p.token ≠ .assign := fun h => h2 (by rw [h]; rfl)
  obtain ⟨m, hm'⟩ := hright
  obtain ⟨n, hn⟩ := hrest
  simp only at hn
  refine ⟨max m n + 1, ?_⟩
  have hq := (expression_mono p₁ _ _).le (Nat.le_max_left m n) _ hm'
  simp only [rightExecute] at hq hread'
  simp only [climb, he, hm, h2, h3, hna, and_self, if_true, if_false, false_and, ne_eq,
    not_false_eq_true, hread, Option.bind_eq_bind, hq, Option.bind_some, hread']
  by_cases hx : execute = true ∧ p₂.error = .ok
  · rw [if_pos hx] at hn
    rw [if_pos hx]
    exact (climb_mono _ _ _ _).le (Nat.le_max_right m n) _ hn
  · rw [if_neg hx] at hn
    rw [if_neg hx]
    exact (climb_mono _ _ _ _).le (Nat.le_max_right m n) _ hn

/-- The loop at an assignment operator. -/
theorem climb_assign {op : Token}
    {x : Bytes} {p₁ p₂ : Parser F} {lhs rhs : ℤ}
    (he : p.error = .ok) (htok : p.token = op) (hm : minimum ≤ precedence op)
    (h2 : precedence op = 2) (hl : left.name = some x)
    (hread : (if op ≠ .assign then readValue (nextToken p) left execute
      else (nextToken p, 0)) = (p₁, lhs))
    (hright : Returns (fun n => expression n p₁ 2 execute) q)
    (hread' : readValue q.1 q.2 execute = (p₂, rhs))
    (hrest : Returns (fun n => if execute = true ∧ p₂.error = .ok then
        let t := if op = .assign then (p₂, rhs)
          else operation p₂ (assignmentOperation op) lhs rhs
        climb n (if t.1.error = .ok then assign t.1 x t.2 else t.1) { number := t.2 } minimum execute
      else climb n p₂ {} minimum execute) r) :
    Returns (fun n => climb n p left minimum execute) r := by
  subst htok
  have h3 : p.token ≠ .question := fun h => by rw [h] at h2; cases h2
  have hand : p.token ≠ .and := fun h => by rw [h] at h2; cases h2
  have hor : p.token ≠ .or := fun h => by rw [h] at h2; cases h2
  obtain ⟨m, hm'⟩ := hright
  obtain ⟨n, hn⟩ := hrest
  simp only at hn
  refine ⟨max m n + 1, ?_⟩
  have hq : expression (max m n) p₁ 2 execute = some q :=
    (expression_mono p₁ _ _).le (Nat.le_max_left m n) _ hm'
  have hx : (execute && !(p.token == .and && lhs == 0) && !(p.token == .or && lhs != 0))
      = execute := by
    rw [beq_eq_false_iff_ne.mpr hand, beq_eq_false_iff_ne.mpr hor]
    simp
  simp only [climb, he, h2, h3, hl, true_and, if_true, if_false, reduceCtorEq, and_false,
    hread, Option.bind_eq_bind, hx, hq, Option.bind_some, hread', Option.getD_some]
  rw [h2] at hm
  rw [if_pos hm]
  by_cases hc : execute = true ∧ p₂.error = .ok
  · rw [if_pos hc] at hn
    rw [if_pos hc]
    exact (climb_mono _ _ _ _).le (Nat.le_max_right m n) _ hn
  · rw [if_neg hc] at hn
    rw [if_neg hc]
    exact (climb_mono _ _ _ _).le (Nat.le_max_right m n) _ hn

/-- The loop at a question mark whose middle operand fails or is not closed by a
colon. -/
theorem climb_question_stop {p₁ p₂ : Parser F} {lhs yes : ℤ}
    (he : p.error = .ok) (hm : minimum ≤ precedence p.token) (h3 : p.token = .question)
    (hread : readValue (nextToken p) left execute = (p₁, lhs))
    (hmid : Returns (fun n => expression n p₁ 1 (execute && lhs != 0)) q)
    (hread' : readValue q.1 q.2 (execute && lhs != 0) = (p₂, yes))
    (hstop : p₂.error ≠ .ok ∨ p₂.token ≠ .colon) :
    Returns (fun n => climb n p left minimum execute)
      (if p₂.error ≠ .ok then p₂ else reject p₂, left) := by
  have h3' : precedence p.token = 3 := by rw [h3]; rfl
  obtain ⟨n, hn⟩ := hmid
  refine ⟨n + 1, ?_⟩
  rw [h3'] at hm
  simp only [climb, he, h3, hm, show precedence .question = 3 from rfl, true_and, if_true,
    Nat.reduceEqDiff, false_and, if_false, ne_eq, reduceCtorEq,
    not_false_eq_true, hread, Option.bind_eq_bind, hn, Option.bind_some, hread']
  by_cases herr : p₂.error = .ok
  · have ht : p₂.token ≠ .colon := hstop.resolve_left fun h => h herr
    simp [herr, ht]
  · simp [herr]

/-- The loop at a complete conditional. -/
theorem climb_cond {q q' r : Parser F × Value} {p₁ p₂ p₃ : Parser F} {lhs yes rhs : ℤ}
    (he : p.error = .ok) (hm : minimum ≤ precedence p.token) (h3 : p.token = .question)
    (hread : readValue (nextToken p) left execute = (p₁, lhs))
    (hmid : Returns (fun n => expression n p₁ 1 (execute && lhs != 0)) q)
    (hread' : readValue q.1 q.2 (execute && lhs != 0) = (p₂, yes))
    (herr : p₂.error = .ok) (hcolon : p₂.token = .colon)
    (hlast : Returns (fun n => expression n (nextToken p₂) 3 (execute && lhs == 0)) q')
    (hread'' : readValue q'.1 q'.2 (execute && lhs == 0) = (p₃, rhs))
    (hrest : Returns (fun n => climb n p₃ { number := if lhs ≠ 0 then yes else rhs }
      minimum execute) r) :
    Returns (fun n => climb n p left minimum execute) r := by
  have h3' : precedence p.token = 3 := by rw [h3]; rfl
  obtain ⟨k, hk⟩ := hmid
  obtain ⟨m, hm'⟩ := hlast
  obtain ⟨n, hn⟩ := hrest
  refine ⟨max k (max m n) + 1, ?_⟩
  have hq : expression (max k (max m n)) p₁ 1 (execute && lhs != 0) = some q :=
    (expression_mono p₁ _ _).le (Nat.le_max_left k (max m n)) _ hk
  have hq' : expression (max k (max m n)) (nextToken p₂) 3 (execute && lhs == 0) = some q' :=
    (expression_mono (nextToken p₂) _ _).le
      ((Nat.le_max_left m n).trans (Nat.le_max_right k _)) _ hm'
  have hr := (climb_mono p₃ _ _ _).le ((Nat.le_max_right m n).trans (Nat.le_max_right k _)) _ hn
  rw [h3'] at hm
  simp only [climb, he, h3, hm, show precedence .question = 3 from rfl, true_and, if_true,
    Nat.reduceEqDiff, false_and, if_false, ne_eq, reduceCtorEq,
    not_false_eq_true, hread, Option.bind_eq_bind, hq, Option.bind_some, hread', herr, hcolon,
    not_true_eq_false, hq', hread'']
  simpa using hr

/-! ### Enough fuel -/

/-- What is left to read: the bytes behind the current token, and the token. -/
def remaining (p : Parser F) : ℕ := p.next.length + if p.token = .eot then 0 else 1

theorem remaining_nextToken (h : p.token ≠ .eot) :
    remaining (nextToken p) < remaining p := by
  have hp : remaining p = p.next.length + 1 := by rw [remaining, if_neg h]
  rcases scan_next_length p.next with ⟨ht, hn⟩ | ⟨ht, hn⟩
  · have hq : remaining (nextToken p) = 0 := by
      rw [remaining, if_pos (show (nextToken p).token = .eot from ht)]
      exact congrArg List.length hn
    omega
  · have hq : remaining (nextToken p) = (scan p.next).next.length + 1 := by
      rw [remaining, if_neg (show ¬ (nextToken p).token = .eot from ht)]
      rfl
    omega

theorem remaining_error (p : Parser F) (c : ArithResult) :
    remaining { p with error := c } = remaining p := rfl

theorem remaining_reject (p : Parser F) : remaining (reject p) = remaining p := rfl

theorem remaining_readValue (p : Parser F) (v : Value) (execute : Bool) :
    remaining (readValue p v execute).1 = remaining p := by
  unfold readValue
  split
  · rfl
  · split
    · split
      · split <;> rfl
      · rfl
      · split <;> rfl
    · split <;> rfl

theorem remaining_operation (p : Parser F) (op : Token) (a b : ℤ) :
    remaining (operation p op a b).1 = remaining p := by
  unfold operation
  split <;> rfl

theorem remaining_assign (p : Parser F) (x : Bytes) (n : ℤ) :
    remaining (assign p x n) = remaining p := by
  unfold assign
  split <;> rfl

theorem remaining_applyUnary (p : Parser F) (op : Token) (v : Value) (execute : Bool) :
    remaining (applyUnary p op v execute).1 = remaining p := by
  unfold applyUnary
  split
  · split
    · rfl
    · simp only
      split
      · rw [← remaining_readValue p v execute]; rfl
      · exact remaining_readValue p v execute
  · rfl

/-- A call answers, and reads nothing back. -/
def Answers (p : Parser F) (x : Option (Parser F × Value)) : Prop :=
  ∃ q, x = some q ∧ remaining q.1 ≤ remaining p

theorem Answers.some_of_le {p q : Parser F} {v : Value} (h : remaining q ≤ remaining p) :
    Answers p (some (q, v)) := ⟨(q, v), rfl, h⟩

theorem Answers.bind {p p' : Parser F} {x : Option (Parser F × Value)}
    {f : Parser F × Value → Option (Parser F × Value)} (hx : Answers p' x)
    (hf : ∀ q, remaining q.1 ≤ remaining p' → Answers p (f q)) : Answers p (x >>= f) := by
  obtain ⟨q, rfl, hq⟩ := hx
  exact hf q hq

theorem Answers.trans {p p' : Parser F} {x : Option (Parser F × Value)} (h : Answers p' x)
    (hp : remaining p' ≤ remaining p) : Answers p x := by
  obtain ⟨q, hx, hq⟩ := h
  exact ⟨q, hx, hq.trans hp⟩

theorem Answers.ite {c : Prop} [Decidable c] {x y : Option (Parser F × Value)}
    (hx : c → Answers p x) (hy : ¬ c → Answers p y) : Answers p (if c then x else y) := by
  split
  · next h => exact hx h
  · next h => exact hy h

theorem enough_all (n : ℕ) :
    (∀ (p : Parser F) execute, 3 * remaining p + 2 ≤ n → Answers p (primary n p execute)) ∧
    (∀ (p : Parser F) minimum execute, 1 ≤ minimum → 3 * remaining p + 3 ≤ n →
      Answers p (expression n p minimum execute)) ∧
    (∀ (p : Parser F) left minimum execute, 1 ≤ minimum → 3 * remaining p + 1 ≤ n →
      Answers p (climb n p left minimum execute)) := by
  induction n with
  | zero =>
    refine ⟨fun p _ h => ?_, fun p _ _ _ h => ?_, fun p _ _ _ _ h => ?_⟩ <;> omega
  | succ n ih =>
    obtain ⟨ihp, ihe, ihc⟩ := ih
    refine ⟨fun p execute h => ?_, fun p minimum execute hmin h => ?_,
      fun p left minimum execute hmin h => ?_⟩
    · unfold primary
      split
      · next ht =>
        have hlt := remaining_nextToken (p := p) (by rw [ht]; decide)
        split
        · exact .some_of_le hlt.le
        · exact .some_of_le (remaining_nextToken (p := { p with error := .syntaxError })
            (by simp [ht])).le
      · next ht => exact .some_of_le (remaining_nextToken (by rw [ht]; decide)).le
      · next ht =>
        have hlt := remaining_nextToken (p := p) (by rw [ht]; decide)
        refine Answers.bind (ihe _ _ _ le_rfl (by omega)) fun q hq => ?_
        refine Answers.ite (fun _ => Answers.ite (fun _ => ?_) fun hr => ?_) fun _ => ?_
        · exact .some_of_le (by rw [remaining_reject]; omega)
        · have := remaining_nextToken (p := q.1) (by rw [not_not.mp hr]; decide)
          exact .some_of_le (by omega)
        · exact ⟨q, rfl, by omega⟩
      · next token _ _ _ =>
        refine Answers.ite (fun hu => ?_) fun _ => .some_of_le (remaining_reject p).le
        have hlt := remaining_nextToken (p := p) (fun h => by rw [h] at hu; cases hu)
        refine Answers.bind (ihe _ _ _ (by omega) (by omega)) fun q hq => ?_
        exact ⟨_, rfl, by rw [remaining_applyUnary]; omega⟩
    · unfold expression
      refine Answers.ite (fun _ => .some_of_le le_rfl) fun _ => ?_
      refine Answers.bind (ihp _ _ (by omega)) fun q hq => ?_
      exact (ihc _ _ _ _ hmin (by omega)).trans hq
    · unfold climb
      refine Answers.ite (fun hc => ?_) fun _ => .some_of_le le_rfl
      have htok : p.token ≠ .eot := fun ht => by
        have hprec := hc.2
        rw [ht, show precedence .eot = 0 from rfl] at hprec
        omega
      have hlt := remaining_nextToken htok
      refine Answers.ite (fun _ => .some_of_le (by rw [remaining_error]; omega)) fun _ => ?_
      -- reading the left operand takes nothing off the text
      have hread : remaining (if p.token ≠ .assign then readValue (nextToken p) left execute
          else (nextToken p, 0)).1 = remaining (nextToken p) := by
        split
        · exact remaining_readValue _ _ _
        · rfl
      generalize (if p.token ≠ .assign then readValue (nextToken p) left execute
        else (nextToken p, 0)) = t at hread ⊢
      obtain ⟨p₁, lhs⟩ := t
      simp only at hread ⊢
      refine Answers.ite (fun _ => ?_) fun _ => ?_
      · refine Answers.bind (ihe _ _ _ le_rfl (by omega)) fun q hq => ?_
        have hyes := remaining_readValue q.1 q.2 (execute && lhs != 0)
        generalize readValue q.1 q.2 (execute && lhs != 0) = t at hyes ⊢
        obtain ⟨p₂, yes⟩ := t
        simp only at hyes ⊢
        refine Answers.ite (fun _ => .some_of_le (by omega)) fun _ => ?_
        refine Answers.ite (fun _ => .some_of_le (by rw [remaining_reject]; omega)) fun hcol => ?_
        have hlt' := remaining_nextToken (p := p₂) (by rw [not_not.mp hcol]; decide)
        refine Answers.bind (ihe _ _ _ (by omega) (by omega)) fun q' hq' => ?_
        have hno := remaining_readValue q'.1 q'.2 (execute && lhs == 0)
        exact (ihc _ _ _ _ hmin (by omega)).trans (by omega)
      · have hlevel : 1 ≤ (if precedence p.token = 2 then 2 else precedence p.token + 1) := by
          split <;> omega
        refine Answers.bind (ihe _ _ _ hlevel (by omega)) fun q hq => ?_
        generalize (execute && !(p.token == .and && lhs == 0) && !(p.token == .or && lhs != 0)) = rx
        have hright := remaining_readValue q.1 q.2 rx
        generalize readValue q.1 q.2 rx = t at hright ⊢
        obtain ⟨p₂, rhs⟩ := t
        simp only at hright ⊢
        refine Answers.ite (fun _ => Answers.ite (fun _ => ?_) fun _ => ?_) fun _ => ?_
        · have hop : remaining (if p.token = .assign then (p₂, rhs)
              else operation p₂ (assignmentOperation p.token) lhs rhs).1 = remaining p₂ := by
            split
            · rfl
            · exact remaining_operation _ _ _ _
          generalize (if p.token = .assign then (p₂, rhs)
              else operation p₂ (assignmentOperation p.token) lhs rhs) = t at hop ⊢
          obtain ⟨p₃, number⟩ := t
          simp only at hop ⊢
          have hset : remaining (if p₃.error = .ok then assign p₃ (left.name.getD []) number
              else p₃) = remaining p₃ := by
            split
            · exact remaining_assign _ _ _
            · rfl
          exact (ihc _ _ _ _ hmin (by omega)).trans (by omega)
        · have hop := remaining_operation p₂ p.token lhs rhs
          exact (ihc _ _ _ _ hmin (by omega)).trans (by omega)
        · exact (ihc _ _ _ _ hmin (by omega)).trans (by omega)

/-- **Fuel linear in what is left of the text suffices.** -/
theorem expression_enough (hmin : 1 ≤ minimum) (execute : Bool)
    {n : ℕ} (hn : 3 * remaining p + 3 ≤ n) : ∃ q, expression n p minimum execute = some q := by
  obtain ⟨q, hq, -⟩ := (enough_all n).2.1 p minimum execute hmin hn
  exact ⟨q, hq⟩

end Arithmetic
end CShell
