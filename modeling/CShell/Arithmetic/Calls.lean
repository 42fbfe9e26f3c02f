import CShell.Arithmetic.Outcome

/-!
# Calls described by outcomes

A call of the recursion on given tokens is described by the outcome of a tree.
The steps below are one for each construct of the grammar: from what the calls on
the operands do, what the call on the whole does.

## Main definitions

* `At p ts` — the parser `p` is live and has the tokens `ts` before it.
* `Computes f execute e s rest` — the computation `f` has the outcome of `e`.
* `Arrives execute e p minimum rest` — `expression` reads `e` and loops on.
* `Delivers execute e p minimum rest` — `expression` reads `e`, and its value is read.

## Main results

* `arrives_binary`, `arrives_cond`, `arrives_assign`, `computes_unary`,
  `computes_paren` — the steps.
-/

namespace CShell
namespace Arithmetic

open Fuel

variable {F : Type}

/-! ### The tokens ahead -/

/-- The tokens still to be read, the current one included. -/
def stream (p : Parser F) : List Tok :=
  if p.token = .eot then [] else ⟨p.token, p.lexeme⟩ :: tokens p.next

/-- The parser is live and has the tokens `ts` before it. -/
structure At (p : Parser F) (ts : List Tok) : Prop where
  live : p.error = .ok
  options : p.options = p.state.info.options
  ahead : stream p = ts

theorem stream_nextToken (p : Parser F) : stream (nextToken p) = tokens p.next := by
  unfold stream
  by_cases h : (scan p.next).token = .eot
  · rw [if_pos (show (nextToken p).token = .eot from h), tokens_eq_nil h]
  · rw [if_neg (show ¬ (nextToken p).token = .eot from h), tokens_eq_cons h]
    rfl

theorem At.cons {p : Parser F} {t : Tok} {ts : List Tok} (h : At p (t :: ts)) :
    p.token = t.kind ∧ p.lexeme = t.lexeme ∧ p.token ≠ .eot ∧ At (nextToken p) ts := by
  have hs := h.ahead
  unfold stream at hs
  split at hs
  · cases hs
  · next hne =>
    cases hs
    exact ⟨rfl, rfl, hne, ⟨h.live, h.options, stream_nextToken p⟩⟩

theorem At.nil {p : Parser F} (h : At p []) : p.token = .eot := by
  have hs := h.ahead
  unfold stream at hs
  split at hs
  · assumption
  · cases hs

/-- The precedence of the next token. -/
def headPrec : List Tok → ℕ
  | [] => 0
  | t :: _ => precedence t.kind

theorem At.prec {p : Parser F} {ts : List Tok} (h : At p ts) : precedence p.token = headPrec ts := by
  cases ts with
  | nil => rw [h.nil]; rfl
  | cons t ts => rw [h.cons.1]; rfl

theorem headPrec_of_stops {ts : List Tok} (h : Stops ts) : headPrec ts = 0 := by
  cases ts with
  | nil => rfl
  | cons t ts => exact h t rfl

/-! ### Calls described by outcomes -/

/-- The loop's left value stands for the tree read so far. -/
def Reached (execute : Bool) (e : Expr) (o : Operand) (left : Value) : Prop :=
  if execute then left = o.toValue else left.name = e.target

/-- The computation `f`, begun in state `s`, has the outcome of `e` and leaves the
tokens `rest`. -/
def Computes (f : ℕ → Option (Parser F × Value)) (execute : Bool) (e : Expr) (s : State F)
    (rest : List Tok) : Prop :=
  match outcome execute e s with
  | .ok (o, s') => ∃ p left, At p rest ∧ p.state = s' ∧ Reached execute e o left ∧ Returns f (p, left)
  | .error c => c ≠ .ok ∧ ∃ p left, p.error = c ∧ Returns f (p, left)

/-- `expression` reads the tree `e` and then does what its loop does there. -/
def Arrives (execute : Bool) (e : Expr) (p : Parser F) (minimum : ℕ) (rest : List Tok) : Prop :=
  match outcome execute e p.state with
  | .ok (o, s') => ∃ p' left, At p' rest ∧ p'.state = s' ∧ Reached execute e o left ∧
      ∀ r, Returns (fun n => climb n p' left minimum execute) r →
        Returns (fun n => expression n p minimum execute) r
  | .error c => c ≠ .ok ∧ ∃ p' left, p'.error = c ∧
      Returns (fun n => expression n p minimum execute) (p', left)

/-- `expression` reads the tree `e`, and its value is read. -/
def Delivers (execute : Bool) (e : Expr) (p : Parser F) (minimum : ℕ) (rest : List Tok) : Prop :=
  match outcomeRead execute e p.state with
  | .ok (n, s') => ∃ q p', Returns (fun k => expression k p minimum execute) q ∧
      readValue q.1 q.2 execute = (p', n) ∧ At p' rest ∧ p'.state = s'
  | .error c => c ≠ .ok ∧ ∃ q p' n, Returns (fun k => expression k p minimum execute) q ∧
      readValue q.1 q.2 execute = (p', n) ∧ p'.error = c

variable {e : Expr}

theorem Arrives.computes {execute : Bool} {p : Parser F} {minimum : ℕ}
    {rest : List Tok} (h : Arrives execute e p minimum rest) (hrest : headPrec rest < minimum) :
    Computes (fun n => expression n p minimum execute) execute e p.state rest := by
  unfold Arrives at h
  unfold Computes
  cases ho : outcome execute e p.state with
  | error c => rw [ho] at h; exact h
  | ok os =>
    obtain ⟨o, s'⟩ := os
    rw [ho] at h
    obtain ⟨p', left, hat, hs, hreach, hgo⟩ := h
    refine ⟨p', left, hat, hs, hreach, hgo _ (climb_done ?_)⟩
    rintro ⟨-, hle⟩
    rw [hat.prec] at hle
    omega

theorem arrives_of_primary {execute : Bool} {p : Parser F} {rest : List Tok}
    (he : p.error = .ok) (minimum : ℕ)
    (h : Computes (fun n => primary n p execute) execute e p.state rest) :
    Arrives execute e p minimum rest := by
  unfold Computes at h
  unfold Arrives
  cases ho : outcome execute e p.state with
  | error c =>
    rw [ho] at h
    obtain ⟨hc, p', left, herr, hret⟩ := h
    exact ⟨hc, p', left, herr,
      expression_returns he hret (climb_of_error (by rw [herr]; exact hc) _ _ _)⟩
  | ok os =>
    rw [ho] at h
    obtain ⟨p', left, hat, hs, hreach, hret⟩ := h
    exact ⟨p', left, hat, hs, hreach, fun r hr => expression_returns he hret hr⟩

/-- Reading the value the loop has reached. -/
theorem readValue_reached {execute : Bool} {o : Operand} {left : Value}
    {p : Parser F} {ts : List Tok} {s : State F} (hreach : Reached execute e o left) (hat : At p ts)
    (ho : outcome execute e s = .ok (o, p.state)) :
    match outcomeRead execute e s with
    | .ok (n, s') => readValue p left execute = (p, n) ∧ p.state = s'
    | .error c => c ≠ .ok ∧ readValue p left execute = ({ p with error := c }, 0) := by
  rw [outcomeRead_eq, ho]
  cases execute with
  | true =>
    simp only [Reached, if_true] at hreach ⊢
    subst hreach
    rw [readValue_eq hat.live hat.options]
    cases hr : read p.state o with
    | error c => exact ⟨read_error hr, rfl⟩
    | ok n => exact ⟨rfl, rfl⟩
  | false =>
    exact ⟨readValue_of_not_execute p left, rfl⟩

theorem Computes.delivers {execute : Bool} {p : Parser F} {minimum : ℕ}
    {rest : List Tok}
    (h : Computes (fun n => expression n p minimum execute) execute e p.state rest) :
    Delivers execute e p minimum rest := by
  unfold Computes at h
  unfold Delivers
  cases ho : outcome execute e p.state with
  | error c =>
    rw [ho] at h
    obtain ⟨hc, p', left, herr, hret⟩ := h
    rw [outcomeRead_eq, ho]
    exact ⟨hc, (p', left), p', 0, hret, readValue_of_error (by rw [herr]; exact hc) _ _, herr⟩
  | ok os =>
    obtain ⟨o, s'⟩ := os
    rw [ho] at h
    obtain ⟨p', left, hat, rfl, hreach, hret⟩ := h
    have hread := readValue_reached hreach hat ho
    cases hn : outcomeRead execute e p.state with
    | error c =>
      rw [hn] at hread
      exact ⟨hread.1, (p', left), _, 0, hret, hread.2, rfl⟩
    | ok ns =>
      rw [hn] at hread
      exact ⟨(p', left), p', hret, hread.1, hat, hread.2⟩

/-- A tree that cannot be read delivers its failure whatever follows. -/
theorem Arrives.delivers_of_error {execute : Bool} {p : Parser F} {minimum : ℕ}
    {rest rest' : List Tok} (h : Arrives execute e p minimum rest) {c : ArithResult}
    (hc : outcome execute e p.state = .error c) : Delivers execute e p minimum rest' := by
  unfold Arrives at h
  rw [hc] at h
  refine Computes.delivers ?_
  unfold Computes
  rw [hc]
  exact h

/-! ### One step of the loop for each construct -/

section Steps

variable {execute : Bool} {p : Parser F} {minimum : ℕ} {ts rest : List Tok}

/-- What the loop does at an operator once its left operand has been read. -/
theorem Arrives.step {l e : Expr} {t : Tok} (h : Arrives execute l p minimum (t :: ts))
    (herr : ∀ c, outcome execute l p.state = .error c → outcome execute e p.state = .error c)
    (hok : ∀ o p' left, outcome execute l p.state = .ok (o, p'.state) → At p' (t :: ts) →
      Reached execute l o left →
      match outcome execute e p.state with
      | .ok (o', s') => ∃ p'' left', At p'' rest ∧ p''.state = s' ∧ Reached execute e o' left' ∧
          ∀ r, Returns (fun n => climb n p'' left' minimum execute) r →
            Returns (fun n => climb n p' left minimum execute) r
      | .error c => c ≠ .ok ∧ ∃ p'' left', p''.error = c ∧
          Returns (fun n => climb n p' left minimum execute) (p'', left')) :
    Arrives execute e p minimum rest := by
  unfold Arrives at h ⊢
  cases ho : outcome execute l p.state with
  | error c =>
    rw [ho] at h
    rw [herr c ho]
    exact h
  | ok os =>
    obtain ⟨o, s'⟩ := os
    rw [ho] at h
    obtain ⟨p', left, hat, rfl, hreach, hgo⟩ := h
    have hstep := hok o p' left ho hat hreach
    cases he : outcome execute e p.state with
    | error c =>
      rw [he] at hstep
      obtain ⟨hc, p'', left', herr, hret⟩ := hstep
      exact ⟨hc, p'', left', herr, hgo _ hret⟩
    | ok os' =>
      rw [he] at hstep
      obtain ⟨p'', left', hat', hs', hreach', hgo'⟩ := hstep
      exact ⟨p'', left', hat', hs', hreach', fun r hr => hgo r (hgo' r hr)⟩

theorem arrives_binary {k : ℕ} {op : Token} {lex : Bytes} {l r : Expr} (hop : BinaryAt k op)
    (hm : minimum ≤ k) (h₁ : Arrives execute l p minimum (⟨op, lex⟩ :: ts))
    (h₂ : ∀ (p' : Parser F) x, At p' ts → Delivers x r p' (k + 1) rest) :
    Arrives execute (.binary op l r) p minimum rest := by
  refine h₁.step (fun c hc => ?_) fun o p' left ho hat hreach => ?_
  · rw [outcome_binary, outcomeRead_eq, hc]
  obtain ⟨htok, -, -, hnext⟩ := hat.cons
  simp only at htok
  have hprec : precedence op = k := hop.1
  have hk2 : precedence op ≠ 2 := by have := hop.2; omega
  have hq : op ≠ .question := by
    rintro rfl
    rw [show precedence .question = 3 from rfl] at hprec
    have := hop.2
    omega
  have hmin : minimum ≤ precedence op := by omega
  have hread := readValue_reached hreach hnext (p := nextToken p') ho
  rw [outcome_binary]
  cases ha : outcomeRead execute l p.state with
  | error c =>
    -- the left operand cannot be read: nothing behind the operator is looked at
    rw [ha] at hread
    obtain ⟨hc, hread⟩ := hread
    refine ⟨hc, { nextToken p' with error := c }, {}, rfl,
      climb_binary (q := ({ nextToken p' with error := c }, {})) hat.live htok hmin
        hk2 hq hread (expression_of_error hc _ _) (readValue_of_error hc _ _) ?_⟩
    simp only [hc, and_false, if_false]
    exact climb_of_error hc _ _ _
  | ok as =>
    obtain ⟨a, s₁⟩ := as
    rw [ha] at hread
    obtain ⟨hread, hs₁⟩ := hread
    have hdel := h₂ (nextToken p') (rightExecute execute op a) hnext
    unfold Delivers at hdel
    rw [hs₁, ← hprec] at hdel
    simp only
    cases hb : outcomeRead (rightExecute execute op a) r s₁ with
    | error c =>
      rw [hb] at hdel
      obtain ⟨hc, q, p₂, n, hret, hread', herr⟩ := hdel
      refine ⟨hc, p₂, {}, herr, climb_binary hat.live htok hmin hk2 hq hread hret hread' ?_⟩
      simp only [herr, hc, and_false, if_false]
      exact climb_of_error (by rw [herr]; exact hc) _ _ _
    | ok bs =>
      obtain ⟨b, s₂⟩ := bs
      rw [hb] at hdel
      obtain ⟨q, p₂, hret, hread', hat₂, hs₂⟩ := hdel
      have hgo := fun r' hr' =>
        climb_binary (r := r') hat.live htok hmin hk2 hq hread hret hread' hr'
      cases execute with
      | false =>
        simp only [Bool.false_eq_true, if_false, false_and] at hgo ⊢
        exact ⟨p₂, {}, hat₂, hs₂, rfl, hgo⟩
      | true =>
        simp only [if_true, true_and, hat₂.live] at hgo ⊢
        unfold operation at hgo
        cases hcomp : compute op a b with
        | none =>
          simp only [hcomp] at hgo
          exact ⟨by decide, { p₂ with error := .syntaxError }, { number := 0 }, rfl,
            hgo _ (climb_of_error (by simp) _ _ _)⟩
        | some v =>
          cases v with
          | none =>
            simp only [hcomp] at hgo
            exact ⟨by decide, { p₂ with error := .range }, { number := 0 }, rfl,
              hgo _ (climb_of_error (by simp) _ _ _)⟩
          | some v =>
            simp only [hcomp] at hgo
            exact ⟨p₂, { number := v }, hat₂, hs₂, rfl, hgo⟩

theorem arrives_cond {lex : Bytes} {c a b : Expr} (ts' : List Tok) (hm : minimum ≤ 3)
    (h₁ : Arrives execute c p minimum (⟨.question, lex⟩ :: ts))
    (h₂ : ∀ (p' : Parser F) x, At p' ts → Delivers x a p' 1 ts')
    (h₃ : ∀ (p' : Parser F) x, At p' ts' →
      (p'.token = .colon ∧ Delivers x b (nextToken p') 3 rest) ∨ (p'.token ≠ .colon ∧ b = .hole)) :
    Arrives execute (.cond c a b) p minimum rest := by
  refine h₁.step (fun e he => ?_) fun o p' left ho hat hreach => ?_
  · rw [outcome_cond, outcomeRead_eq, he]
  obtain ⟨htok, -, -, hnext⟩ := hat.cons
  simp only at htok
  have hmin : minimum ≤ precedence p'.token := by rw [htok]; exact hm
  have hread := readValue_reached hreach hnext (p := nextToken p') ho
  rw [outcome_cond]
  cases hn : outcomeRead execute c p.state with
  | error e =>
    rw [hn] at hread
    obtain ⟨he, hread⟩ := hread
    have hstop := climb_question_stop hat.live hmin htok hread
      (q := ({ nextToken p' with error := e }, {})) (expression_of_error he _ _)
      (readValue_of_error he _ _) (Or.inl he)
    exact ⟨he, _, _, by simp [he], hstop⟩
  | ok ns =>
    obtain ⟨n, s₁⟩ := ns
    rw [hn] at hread
    obtain ⟨hread, hs₁⟩ := hread
    have hmid := h₂ (nextToken p') (execute && n != 0) hnext
    unfold Delivers at hmid
    rw [hs₁] at hmid
    simp only
    cases hv : outcomeRead (execute && n != 0) a s₁ with
    | error e =>
      rw [hv] at hmid
      obtain ⟨he, q, p₂, m, hret, hread', herr⟩ := hmid
      have hne : p₂.error ≠ .ok := by rw [herr]; exact he
      have hstop := climb_question_stop hat.live hmin htok hread hret hread' (Or.inl hne)
      exact ⟨he, _, _, by simpa [hne] using herr, hstop⟩
    | ok vs =>
      obtain ⟨v, s₂⟩ := vs
      rw [hv] at hmid
      obtain ⟨q, p₂, hret, hread', hat₂, hs₂⟩ := hmid
      simp only
      rcases h₃ p₂ (execute && n == 0) hat₂ with ⟨hcol, hlast⟩ | ⟨hcol, rfl⟩
      · unfold Delivers at hlast
        rw [show (nextToken p₂).state = s₂ from hs₂] at hlast
        cases hw : outcomeRead (execute && n == 0) b s₂ with
        | error e =>
          rw [hw] at hlast
          obtain ⟨he, q', p₃, m, hret', hread'', herr⟩ := hlast
          exact ⟨he, p₃, _, herr, climb_cond hat.live hmin htok hread hret hread' hat₂.live hcol hret'
            hread'' (climb_of_error (by rw [herr]; exact he) _ _ _)⟩
        | ok ws =>
          obtain ⟨w, s₃⟩ := ws
          rw [hw] at hlast
          obtain ⟨q', p₃, hret', hread'', hat₃, hs₃⟩ := hlast
          refine ⟨p₃, { number := if n ≠ 0 then v else w }, hat₃, hs₃, ?_, fun r hr =>
            climb_cond hat.live hmin htok hread hret hread' hat₂.live hcol hret' hread'' hr⟩
          unfold Reached
          split <;> rfl
      · -- the colon is missing, whether or not the last operand would be executed
        have hhole : outcomeRead (execute && n == 0) .hole s₂ = .error .syntaxError := by
          cases (execute && n == 0) <;> rfl
        rw [hhole]
        have hstop := climb_question_stop hat.live hmin htok hread hret hread' (Or.inr hcol)
        exact ⟨by decide, _, _, by simp [hat₂.live, reject], hstop⟩

/-- The old value of a variable is read unless the operator is a plain `=` or nothing is
executed. -/
theorem oldValue_read {op : Token} {x : Bytes} {q : Parser F} {s : State F} {left : Value}
    (hlive : q.error = .ok) (hoptions : q.options = q.state.info.options) (hs : q.state = s)
    (hleft : execute = true → left = (Operand.var x).toValue) :
    match (if op = .assign ∨ execute = false then .ok 0 else read s (.var x)) with
    | .ok old => (if op ≠ .assign then readValue q left execute else (q, 0)) = (q, old)
    | .error c => c ≠ .ok ∧
        (if op ≠ .assign then readValue q left execute else (q, 0)) = ({ q with error := c }, 0) := by
  by_cases hplain : op = .assign
  · simp [hplain]
  · cases execute with
    | false => simp [hplain, readValue_of_not_execute]
    | true =>
      have hval := readValue_eq hlive hoptions (.var x)
      rw [hs] at hval
      simp only [hplain, Bool.true_eq_false, or_self, if_false, ne_eq, not_false_eq_true, if_true,
        hleft rfl, hval]
      cases hr : read s (.var x) with
      | error c => exact ⟨read_error hr, rfl⟩
      | ok n => rfl

/-- The number to store, or the failure of the operation. -/
theorem newValue_operation {op : Token} (q : Parser F) (old n : ℤ) :
    match (if op = .assign then .ok n else computed (compute (assignmentOperation op) old n)) with
    | .ok v => (if op = .assign then (q, n) else operation q (assignmentOperation op) old n) = (q, v)
    | .error c => c ≠ .ok ∧
        (if op = .assign then (q, n) else operation q (assignmentOperation op) old n) =
          ({ q with error := c }, 0) := by
  by_cases hplain : op = .assign
  · simp [hplain]
  · simp only [hplain, if_false, operation]
    cases compute (assignmentOperation op) old n with
    | none => exact ⟨by decide, rfl⟩
    | some v => cases v with
      | none => exact ⟨by decide, rfl⟩
      | some v => rfl

theorem arrives_assign {op : Token} {lex : Bytes} {x : Bytes} (hop : precedence op = 2)
    (hm : minimum ≤ 2) (h₁ : Arrives execute (.var x) p minimum (⟨op, lex⟩ :: ts))
    (h₂ : ∀ p' : Parser F, At p' ts → Delivers execute e p' 2 rest) :
    Arrives execute (.assign op x e) p minimum rest := by
  have hvar : ∀ o s', outcome execute (.var x) p.state = .ok (o, s') →
      s' = p.state ∧ (execute = true → o = .var x) := by
    intro o s' h
    cases execute <;> cases h <;> simp
  refine h₁.step (fun c hc => ?_) fun o p' left ho hat hreach => ?_
  · cases execute <;> cases hc
  obtain ⟨htok, -, -, hnext⟩ := hat.cons
  simp only at htok
  obtain ⟨hs', hvar'⟩ := hvar _ _ ho
  have hmin : minimum ≤ precedence op := by omega
  have hname : left.name = some x := by
    cases execute with
    | true =>
      have hleft : left = o.toValue := hreach
      rw [hleft, hvar' rfl]; rfl
    | false => exact hreach
  have hread := readValue_reached hreach hnext (p := nextToken p') ho
  rw [outcome_assign]
  have hleft : execute = true → left = (Operand.var x).toValue := by
    rintro rfl
    have hleft : left = o.toValue := hreach
    rw [hleft, hvar' rfl]
  have hold := @oldValue_read _ execute op _ _ _ _ hnext.live hnext.options hs' hleft
  cases hold' : (if op = .assign ∨ execute = false then .ok 0 else read p.state (.var x)) with
  | error c =>
    rw [hold'] at hold
    obtain ⟨hc, hold⟩ := hold
    refine ⟨hc, { nextToken p' with error := c }, {}, rfl,
      climb_assign (q := ({ nextToken p' with error := c }, {})) hat.live htok hmin
        hop hname hold (expression_of_error hc _ _) (readValue_of_error hc _ _) ?_⟩
    simp only [hc, and_false, if_false]
    exact climb_of_error hc _ _ _
  | ok old =>
    rw [hold'] at hold
    have hdel := h₂ (nextToken p') hnext
    unfold Delivers at hdel
    rw [show (nextToken p').state = p.state from hs'] at hdel
    simp only at hold ⊢
    cases hn : outcomeRead execute e p.state with
    | error c =>
      rw [hn] at hdel
      obtain ⟨hc, q, p₂, m, hret, hread', herr⟩ := hdel
      refine ⟨hc, p₂, {}, herr, climb_assign hat.live htok hmin hop hname hold hret hread' ?_⟩
      simp only [herr, hc, and_false, if_false]
      exact climb_of_error (by rw [herr]; exact hc) _ _ _
    | ok ns =>
      obtain ⟨n, s₁⟩ := ns
      rw [hn] at hdel
      obtain ⟨q, p₂, hret, hread', hat₂, hs₂⟩ := hdel
      have hgo := fun r' hr' =>
        climb_assign (r := r') hat.live htok hmin hop hname hold hret hread' hr'
      cases execute with
      | false =>
        simp only [Bool.false_eq_true, if_false, false_and] at hgo ⊢
        exact ⟨p₂, {}, hat₂, hs₂, rfl, hgo⟩
      | true =>
        simp only [if_true, true_and, hat₂.live] at hgo ⊢
        have hnum := @newValue_operation _ op p₂ old n
        cases hv : (if op = .assign then .ok n
              else computed (compute (assignmentOperation op) old n)) with
        | error c =>
          rw [hv] at hnum
          obtain ⟨hc, hnum⟩ := hnum
          simp only [hnum, hc, if_false] at hgo
          exact ⟨hc, { p₂ with error := c }, { number := 0 }, rfl, hgo _ (climb_of_error hc _ _ _)⟩
        | ok v =>
          rw [hv] at hnum
          simp only at hnum ⊢
          have hstore := assign_eq hat₂.options x v
          rw [hs₂] at hstore
          simp only [hnum, hat₂.live, if_true] at hgo
          cases hw : storeValue s₁ x v with
          | error c =>
            rw [hw] at hstore
            obtain ⟨hc, s₂, hset⟩ := hstore
            rw [hset] at hgo
            exact ⟨hc, { p₂ with state := s₂, error := c }, { number := v }, rfl,
              hgo _ (climb_of_error hc _ _ _)⟩
          | ok os =>
            obtain ⟨o', s₂⟩ := os
            rw [hw] at hstore
            simp only at hstore
            rw [hstore] at hgo
            have hinfo := storeValue_info hw
            refine ⟨{ p₂ with state := s₂ }, { number := v }, ⟨hat₂.live, ?_, hat₂.ahead⟩, rfl, ?_, hgo⟩
            · simp only [hinfo, ← hs₂, hat₂.options]
            · rw [storeValue_operand hw]; rfl

end Steps

/-! ### Operands -/

theorem precedence_le (op : Token) : precedence op ≤ 13 := by
  cases op <;> decide

theorem headPrec_le (ts : List Tok) : headPrec ts ≤ 13 := by
  cases ts with
  | nil => exact Nat.zero_le _
  | cons t ts => exact precedence_le _

section Operands

variable {execute : Bool} {p : Parser F} {ts rest : List Tok}

theorem computes_unary {op : Token} {lex : Bytes} (hop : unaryToken op = true)
    (hat : At p (⟨op, lex⟩ :: ts))
    (h : Computes (fun n => expression n (nextToken p) 14 execute) execute e p.state rest) :
    Computes (fun n => primary n p execute) execute (.unary op e) p.state rest := by
  obtain ⟨htok, -, -, -⟩ := hat.cons
  simp only at htok
  have hu : unaryToken p.token = true := by rw [htok]; exact hop
  have hdead : ∀ (q : Parser F) v, q.error ≠ .ok →
      applyUnary q op v execute = (q, { v with name := none, high := 0 }) := by
    intro q v hq
    simp [applyUnary, hq]
  unfold Computes at h ⊢
  cases execute with
  | false =>
    have hskip : skip (.unary op e) = skip e := rfl
    simp only [outcome_false, hskip] at h ⊢
    cases hs : skip e with
    | error c =>
      rw [hs] at h
      obtain ⟨hc, q, v, herr, hret⟩ := h
      have hprim := primary_unary hu hret
      rw [htok, hdead q v (by rw [herr]; exact hc)] at hprim
      exact ⟨hc, q, _, herr, hprim⟩
    | ok u =>
      rw [hs] at h
      obtain ⟨q, v, hq, hstate, -, hret⟩ := h
      have hprim := primary_unary hu hret
      exact ⟨q, { v with name := none, high := 0 }, hq, hstate, rfl, hprim⟩
  | true =>
    simp only [outcome_true] at h ⊢
    cases hd : designate e p.state with
    | error c =>
      rw [designate_unary, hd]
      rw [hd] at h
      obtain ⟨hc, q, v, herr, hret⟩ := h
      have hprim := primary_unary hu hret
      rw [htok, hdead q v (by rw [herr]; exact hc)] at hprim
      exact ⟨hc, q, _, herr, hprim⟩
    | ok os =>
      obtain ⟨o, s'⟩ := os
      rw [hd] at h
      obtain ⟨q, v, hq, rfl, hreach, hret⟩ := h
      rw [designate_unary_of_ok hd]
      have hv : v = o.toValue := hreach
      subst hv
      have hprim := primary_unary hu hret
      rw [htok] at hprim
      have hlong : ∀ n, read q.state o = .ok n → InLong n := fun n hn =>
        inLong_read (fun m hm => inLong_designate e _ _ m (hm ▸ hd)) hn
      have happly := applyUnary_eq hq.live hq.options op o hlong
      cases hr : (if op = .sub ∧ o = .num (2 ^ 63) then .ok longMin
          else (read q.state o).bind (unaryArith op)) with
      | ok n =>
        rw [hr] at happly
        simp only at happly
        rw [happly] at hprim
        exact ⟨q, { number := n }, hq, rfl, rfl, hprim⟩
      | error c =>
        rw [hr] at happly
        obtain ⟨v, happly⟩ := happly
        rw [happly] at hprim
        have hc : c ≠ .ok := by
          split at hr
          · cases hr
          · cases hread : read q.state o with
            | error c' => rw [hread] at hr; cases hr; exact read_error hread
            | ok n => rw [hread] at hr; exact unaryArith_error hr
        exact ⟨hc, { q with error := c }, v, rfl, hprim⟩

theorem computes_paren {lex lex' : Bytes} (hat : At p (⟨.lparen, lex⟩ :: ts))
    (h : Computes (fun n => expression n (nextToken p) 1 execute) execute e p.state
      (⟨.rparen, lex'⟩ :: rest)) :
    Computes (fun n => primary n p execute) execute e p.state rest := by
  obtain ⟨htok, -, -, -⟩ := hat.cons
  simp only at htok
  unfold Computes at h ⊢
  cases ho : outcome execute e p.state with
  | error c =>
    rw [ho] at h
    obtain ⟨hc, q, v, herr, hret⟩ := h
    have hprim := primary_paren htok hret
    rw [if_neg (by rw [herr]; exact hc)] at hprim
    exact ⟨hc, q, v, herr, hprim⟩
  | ok os =>
    rw [ho] at h
    obtain ⟨q, v, hq, hs, hreach, hret⟩ := h
    obtain ⟨hclose, -, -, hnext⟩ := hq.cons
    have hprim := primary_paren htok hret
    rw [if_pos hq.live, if_neg (by simp [hclose])] at hprim
    exact ⟨nextToken q, v, hnext, hs, hreach, hprim⟩

end Operands

/-! ### Calls that stop -/

/-- A tree and a stop behind it, at a call that is over there. -/
theorem Computes.stop {f g : ℕ → Option (Parser F × Value)} {execute : Bool}
    {s : State F} {rest : List Tok} (h : Computes f execute e s rest)
    (herr : ∀ q, q.1.error ≠ .ok → Returns f q → Returns g q)
    (hok : ∀ p left, At p rest → Returns f (p, left) →
      ∃ p' left', p'.error = .syntaxError ∧ Returns g (p', left')) :
    ∃ c, outcome execute (.stop e) s = .error c ∧ c ≠ .ok ∧
      ∃ p left, p.error = c ∧ Returns g (p, left) := by
  unfold Computes at h
  rw [outcome_stop]
  cases ho : outcome execute e s with
  | error c =>
    rw [ho] at h
    obtain ⟨hc, p, left, hpe, hret⟩ := h
    exact ⟨c, rfl, hc, p, left, hpe, herr _ (by rw [hpe]; exact hc) hret⟩
  | ok os =>
    rw [ho] at h
    obtain ⟨p, left, hat, -, -, hret⟩ := h
    obtain ⟨p', left', he, hret'⟩ := hok p left hat hret
    exact ⟨_, rfl, by decide, p', left', he, hret'⟩

theorem arrives_of_error {execute : Bool} {p p' : Parser F} {minimum : ℕ}
    {rest : List Tok} {left : Value} {c : ArithResult} (ho : outcome execute e p.state = .error c)
    (hc : c ≠ .ok) (hp : p'.error = c)
    (hret : Returns (fun n => expression n p minimum execute) (p', left)) :
    Arrives execute e p minimum rest := by
  unfold Arrives
  rw [ho]
  exact ⟨hc, p', left, hp, hret⟩

/-- An operand that cannot even start. -/
theorem primary_of_not_startsOperand {p : Parser F} {ts : List Tok} (hat : At p ts)
    (h : ∀ t ∈ ts.head?, t.startsOperand = false) (execute : Bool) :
    ∃ p', p'.error = .syntaxError ∧ Returns (fun n => primary n p execute) (p', {}) := by
  cases ts with
  | nil =>
    have ht := hat.nil
    exact ⟨reject p, rfl, primary_other (by simp [ht]) (by simp [ht]) (by simp [ht])
      (by rw [ht]; rfl) execute⟩
  | cons t ts =>
    obtain ⟨htok, hlex, -, -⟩ := hat.cons
    have hst : t.startsOperand = false := h t rfl
    unfold Tok.startsOperand at hst
    by_cases hn : p.token = .number
    · rw [← htok, hn] at hst
      have hconst : constant t.lexeme = none := by simpa using hst
      refine ⟨_, rfl, primary_number_bad hn execute ?_⟩
      rw [hlex, literal_eq, hconst]; rfl
    · rw [← htok] at hst
      refine ⟨reject p, rfl, primary_other hn ?_ ?_ ?_ execute⟩
      · intro h'; rw [h'] at hst; cases hst
      · intro h'; rw [h'] at hst; cases hst
      · cases htk : p.token <;> rw [htk] at hst hn <;>
          first | rfl | (exact absurd rfl hn) | (simp [unaryToken] at hst)

end Arithmetic
end CShell
