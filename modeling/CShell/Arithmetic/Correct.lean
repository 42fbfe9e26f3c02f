import CShell.Arithmetic.Calls
import CShell.State.Reachable

/-!
# The evaluator against the reference semantics

Along a derivation of the grammar the precedence-climbing recursion reads exactly
the tokens of the derivation and evaluates its tree; along a broken derivation it
stops with the first failure of the tree.

## Main results

* `arrives_of_derives`, `arrives_of_broken` — the two inductions.
* `reading_total` — every token list has a tree, complete or broken.
* `arithEval_correct` — **`csh_arith_eval` succeeds and fails as the reference does.**
-/

namespace CShell
namespace Arithmetic

open Fuel List

variable {F : Type}

/-! ### Along a derivation -/

/-- What may follow a level-`k` expression the loop of which is still running: an
operator that binds less tightly, or one of the level itself where the level
associates to the left. -/
def Follows (k : ℕ) (rest : List Tok) : Prop :=
  headPrec rest < k ∨ headPrec rest = k ∧ k ≠ 2 ∧ k ≠ 3

variable {k : ℕ} {rest ts : List Tok} {e : Expr}

theorem Follows.succ (h : Follows k rest) : Follows (k + 1) rest := by
  rcases h with h | h
  · exact Or.inl (by omega)
  · exact Or.inl (by omega)

theorem follows_cons {t : Tok} (h : precedence t.kind < k) :
    Follows k (t :: rest) := Or.inl h

theorem follows_binary {op : Token} {lex : Bytes} (hop : BinaryAt k op) :
    Follows k (⟨op, lex⟩ :: rest) := by
  refine Or.inr ⟨hop.1, ?_, ?_⟩
  · have := hop.2; omega
  · have := hop.2; omega

/-- **Along a derivation the recursion reads the tokens of the derivation.** -/
theorem arrives_of_derives (h : Derives k ts e) :
    ∀ {minimum : ℕ}, minimum ≤ k → ∀ {rest : List Tok}, Follows k rest →
      ∀ (execute : Bool) {p : Parser F}, At p (ts ++ rest) → Arrives execute e p minimum rest := by
  induction h with
  | @number l n hn =>
    intro minimum _ rest _ execute p hat
    obtain ⟨htok, hlex, -, hnext⟩ := hat.cons
    refine arrives_of_primary hat.live minimum ?_
    have hlit : literal p.lexeme = some (classify n) := by rw [hlex, literal_eq, hn]; rfl
    have hret := primary_number htok execute hlit
    cases execute <;> exact ⟨nextToken p, classify n, hnext, rfl, rfl, hret⟩
  | @name x =>
    intro minimum _ rest _ execute p hat
    obtain ⟨htok, hlex, -, hnext⟩ := hat.cons
    refine arrives_of_primary hat.live minimum ?_
    have hret := primary_name htok execute
    rw [hlex] at hret
    cases execute <;> exact ⟨nextToken p, { name := some x }, hnext, rfl, rfl, hret⟩
  | @paren l l' ts e _ ih =>
    intro minimum _ rest _ execute p hat
    have hat' : At p (⟨.lparen, l⟩ :: (ts ++ ⟨.rparen, l'⟩ :: rest)) := by simpa using hat
    obtain ⟨-, -, -, hnext⟩ := hat'.cons
    have harr := ih le_rfl (follows_cons (t := ⟨.rparen, l'⟩) Nat.zero_lt_one)
      execute hnext
    exact arrives_of_primary hat.live minimum
      (computes_paren hat' (harr.computes Nat.zero_lt_one))
  | @unary op l ts e hop _ ih =>
    intro minimum _ rest _ execute p hat
    have hfollow : headPrec rest < 14 := Nat.lt_succ_of_le (headPrec_le rest)
    obtain ⟨-, -, -, hnext⟩ := hat.cons
    have harr := ih le_rfl (Or.inl hfollow) execute hnext
    exact arrives_of_primary hat.live minimum
      (computes_unary hop hat (harr.computes hfollow))
  | @binary k op l ts₁ ts₂ e₁ e₂ hop _ _ ih₁ ih₂ =>
    intro minimum hm rest hf execute p hat
    have hle : headPrec rest ≤ k := by rcases hf with h | h <;> omega
    have hat' : At p (ts₁ ++ ⟨op, l⟩ :: (ts₂ ++ rest)) := by simpa using hat
    refine arrives_binary hop hm
      (ih₁ hm (follows_binary hop) execute hat') ?_
    intro p' x hp'
    exact ((ih₂ le_rfl (Or.inl (by omega)) x hp').computes (by omega)).delivers
  | @cond l l' ts₁ ts₂ ts₃ c a b _ _ _ ih₁ ih₂ ih₃ =>
    intro minimum hm rest hf execute p hat
    have hlt : headPrec rest < 3 := by rcases hf with h | h <;> omega
    have hat' : At p (ts₁ ++ ⟨.question, l⟩ :: (ts₂ ++ ⟨.colon, l'⟩ :: (ts₃ ++ rest))) := by
      simpa using hat
    refine arrives_cond _ hm (ih₁ (by omega)
      (follows_cons (by decide : precedence .question < 4)) execute hat')
      (fun p' x hp' => ((ih₂ le_rfl (follows_cons (t := ⟨.colon, l'⟩) Nat.zero_lt_one) x hp').computes
        Nat.zero_lt_one).delivers)
      fun p' x hp' => Or.inl ?_
    obtain ⟨hcol, -, -, hnext⟩ := hp'.cons
    exact ⟨hcol, ((ih₃ le_rfl (Or.inl hlt) x hnext).computes hlt).delivers⟩
  | @assign op l ts₁ ts₂ x e hop _ _ ih₁ ih₂ =>
    intro minimum hm rest hf execute p hat
    have hlt : headPrec rest < 2 := by rcases hf with h | h <;> omega
    have hat' : At p (ts₁ ++ ⟨op, l⟩ :: (ts₂ ++ rest)) := by simpa using hat
    refine arrives_assign hop hm
      (ih₁ (by omega) (follows_cons (Nat.lt_succ_of_le (precedence_le op))) execute hat') ?_
    intro p' hp'
    exact ((ih₂ le_rfl (Or.inl hlt) execute hp').computes hlt).delivers
  | lift _ _ ih =>
    intro minimum hm rest hf execute p hat
    exact ih (by omega) hf.succ execute hat

/-! ### Along a broken derivation -/

theorem holed_of_broken (h : Broken k ts e) : e.holed = true := by
  induction h with
  | operand => rfl
  | inside _ ih => exact ih
  | unclosed => rfl
  | unary _ _ ih => exact ih
  | binary _ _ _ ih => simp [Expr.holed, ih]
  | middle _ _ ih => simp [Expr.holed]
  | colon => simp [Expr.holed]
  | last _ _ _ ih => simp [Expr.holed, ih]
  | assign _ _ _ ih => exact ih
  | target => rfl
  | lift _ _ ih => exact ih

/-- **Along a broken derivation the recursion stops with the tree's first failure.** -/
theorem arrives_of_broken (h : Broken k ts e) :
    ∀ {minimum : ℕ}, minimum ≤ k → ∀ (execute : Bool) {p : Parser F}, At p ts →
      Arrives execute e p minimum [] := by
  induction h with
  | @operand ts hstart =>
    intro minimum _ execute p hat
    obtain ⟨p', herr, hret⟩ := primary_of_not_startsOperand hat hstart execute
    have ho : outcome execute .hole p.state = .error .syntaxError := by cases execute <;> rfl
    exact arrives_of_error ho (by decide) herr
      (expression_returns hat.live hret (climb_of_error (by rw [herr]; decide) _ _ _))
  | @inside l ts e hb ih =>
    intro minimum _ execute p hat
    obtain ⟨htok, -, -, hnext⟩ := hat.cons
    obtain ⟨c, hc⟩ := outcome_of_holed (holed_of_broken hb) execute p.state
    have harr := ih le_rfl execute hnext
    unfold Arrives at harr
    rw [show (nextToken p).state = p.state from rfl, hc] at harr
    obtain ⟨hne, q, v, herr, hret⟩ := harr
    have hq : q.error ≠ .ok := by rw [herr]; exact hne
    have hprim := primary_paren htok hret
    rw [if_neg hq] at hprim
    exact arrives_of_error hc hne herr
      (expression_returns hat.live hprim (climb_of_error hq _ _ _))
  | @unclosed l ts rest e hd hstop hrest =>
    intro minimum _ execute p hat
    obtain ⟨htok, -, -, hnext⟩ := hat.cons
    have hprec : headPrec rest < 1 := by rw [headPrec_of_stops hstop]; exact Nat.zero_lt_one
    have hcomp := (arrives_of_derives hd le_rfl (Or.inl hprec) execute hnext).computes
      hprec
    obtain ⟨c, ho, hc, q, v, herr, hret⟩ := hcomp.stop (g := fun n => primary n p execute)
      (fun q hq hret => by simpa [hq] using primary_paren htok hret)
      (fun q v hq hret => by
        have hne : q.token ≠ .rparen := by
          cases rest with
          | nil => rw [hq.nil]; decide
          | cons t rest => rw [hq.cons.1]; exact hrest t rfl
        have hprim := primary_paren htok hret
        rw [if_pos hq.live, if_pos hne] at hprim
        exact ⟨reject q, v, rfl, hprim⟩)
    exact arrives_of_error ho hc herr
      (expression_returns hat.live hret (climb_of_error (by rw [herr]; exact hc) _ _ _))
  | @unary op l ts e hop hb ih =>
    intro minimum _ execute p hat
    obtain ⟨-, -, -, hnext⟩ := hat.cons
    have harr := ih le_rfl execute hnext
    exact arrives_of_primary hat.live minimum
      (computes_unary hop hat (harr.computes (by decide)))
  | @binary k op l ts₁ ts₂ e₁ e₂ hop hd hb ih =>
    intro minimum hm execute p hat
    refine arrives_binary hop hm (arrives_of_derives hd hm (follows_binary hop) execute hat) ?_
    intro p' x hp'
    obtain ⟨c, hc⟩ := outcome_of_holed (holed_of_broken hb) x p'.state
    exact (ih le_rfl _ hp').delivers_of_error hc
  | @middle l ts₁ ts₂ c a hd hb ih =>
    intro minimum hm execute p hat
    refine arrives_cond [] hm (arrives_of_derives hd (by omega)
      (follows_cons (by decide : precedence .question < 4)) execute hat)
      (fun p' x hp' => ?_) fun p' x hp' => Or.inr ⟨by rw [hp'.nil]; decide, rfl⟩
    obtain ⟨c, hc⟩ := outcome_of_holed (holed_of_broken hb) x p'.state
    exact (ih le_rfl _ hp').delivers_of_error hc
  | @colon l ts₁ ts₂ rest c a hd hd' hstop hrest =>
    intro minimum hm execute p hat
    have hprec : headPrec rest < 1 := by rw [headPrec_of_stops hstop]; exact Nat.zero_lt_one
    refine arrives_cond rest hm (arrives_of_derives hd (by omega)
      (follows_cons (by decide : precedence .question < 4)) execute hat)
      (fun p' x hp' => ((arrives_of_derives hd' le_rfl (Or.inl hprec) x hp').computes hprec).delivers)
      fun p' x hp' => Or.inr ⟨?_, rfl⟩
    cases rest with
    | nil => rw [hp'.nil]; decide
    | cons t rest => rw [hp'.cons.1]; exact hrest t rfl
  | @last l l' ts₁ ts₂ ts₃ c a b hd hd' hb ih =>
    intro minimum hm execute p hat
    refine arrives_cond _ hm (arrives_of_derives hd (by omega)
      (follows_cons (by decide : precedence .question < 4)) execute hat)
      (fun p' x hp' => ((arrives_of_derives hd' le_rfl (follows_cons (t := ⟨.colon, l'⟩) Nat.zero_lt_one) x hp').computes
        Nat.zero_lt_one).delivers) fun p' x hp' => Or.inl ?_
    obtain ⟨hcol, -, -, hnext⟩ := hp'.cons
    obtain ⟨c, hc⟩ := outcome_of_holed (holed_of_broken hb) x (nextToken p').state
    exact ⟨hcol, (ih le_rfl _ hnext).delivers_of_error hc⟩
  | @assign op l ts₁ ts₂ x e hop hd hb ih =>
    intro minimum hm execute p hat
    refine arrives_assign hop hm (arrives_of_derives hd (by omega)
      (follows_cons (Nat.lt_succ_of_le (precedence_le op))) execute hat) ?_
    intro p' hp'
    obtain ⟨c, hc⟩ := outcome_of_holed (holed_of_broken hb) execute p'.state
    exact (ih le_rfl _ hp').delivers_of_error hc
  | @target op l ts rest e hop hd he =>
    intro minimum hm execute p hat
    have harr := arrives_of_derives hd (by omega : minimum ≤ 3)
      (follows_cons (by rw [hop]; decide)) execute hat
    have hhole : Expr.holed (.stop e) = true := rfl
    refine harr.step (fun c hc => ?_) fun o p' left ho hp' hreach => ?_
    · rw [outcome_stop, hc]
    · rw [outcome_stop, ho]
      obtain ⟨htok, -, -, -⟩ := hp'.cons
      simp only at htok
      have hname : left.name = none := by
        cases execute with
        | true =>
          have hleft : left = o.toValue := hreach
          rw [hleft]
          exact name_of_target he ho
        | false => exact hreach.trans he
      exact ⟨by decide, _, _, rfl, climb_target hp'.live (by rw [htok, hop]; exact hm)
        (by rw [htok, hop]) hname⟩
  | lift _ _ ih =>
    intro minimum hm execute p hat
    exact ih (by omega) execute hat

/-! ### Every token list can be read as far as it goes -/

/-- A level-`k` expression at the front of `ts`, or what is there of one. -/
def Readable (k : ℕ) (ts : List Tok) : Prop :=
  (∃ ts₁ rest e, ts = ts₁ ++ rest ∧ Derives k ts₁ e ∧ headPrec rest < k) ∨ ∃ e, Broken k ts e

theorem Derives.lower {j k : ℕ} (h : Derives j ts e) (hk : 1 ≤ k)
    (hkj : k ≤ j) : Derives k ts e := by
  obtain ⟨d, rfl⟩ := Nat.exists_eq_add_of_le hkj
  induction d with
  | zero => exact h
  | succ d ih => exact ih (.lift (by omega) h) (by omega)

theorem Broken.lower {j k : ℕ} (h : Broken j ts e) (hk : 1 ≤ k)
    (hkj : k ≤ j) : Broken k ts e := by
  obtain ⟨d, rfl⟩ := Nat.exists_eq_add_of_le hkj
  induction d with
  | zero => exact h
  | succ d ih => exact ih (.lift (by omega) h) (by omega)

/-- A name is an operand at whatever level it was derived. -/
theorem Derives.of_var (h : Derives k ts e) {x : Bytes}
    (he : e = .var x) : Derives 14 ts (.var x) := by
  induction h with
  | number hn => cases he
  | name => cases he; exact .name
  | paren h _ => subst he; exact .paren h
  | unary => cases he
  | binary => cases he
  | cond => cases he
  | assign => cases he
  | lift _ _ ih => exact ih he

theorem eq_var_of_target {x : Bytes} (h : e.target = some x) : e = .var x := by
  cases e <;> first | (cases h; done) | (cases h; rfl)

/-- The loop: from a tree in hand, on to the first operator that binds less tightly
than `k`. -/
theorem readable_loop {N k : ℕ} (hk : 1 ≤ k)
    (ih : ∀ ts : List Tok, ts.length < N → ∀ k, 1 ≤ k → k ≤ 14 → Readable k ts) :
    ∀ (rest : List Tok) {j : ℕ} {ts₁ : List Tok} {e : Expr}, rest.length ≤ N →
      Derives j ts₁ e → k ≤ j → Follows j rest → Readable k (ts₁ ++ rest) := by
  intro rest
  induction hlen : rest.length using Nat.strong_induction_on generalizing rest with
  | _ n loop =>
    intro j ts₁ e hN hd hkj hf
    by_cases hstop : headPrec rest < k
    · exact Or.inl ⟨ts₁, rest, e, rfl, hd.lower hk hkj, hstop⟩
    cases rest with
    | nil => exact absurd hk (by simp only [headPrec] at hstop; omega)
    | cons t rest =>
      obtain ⟨op, lex⟩ := t
      have hprec : headPrec (⟨op, lex⟩ :: rest) = precedence op := rfl
      rw [hprec] at hstop
      simp only [length_cons] at hlen hN
      have hle : precedence op ≤ j := by rcases hf with h | h <;> omega
      have h13 := precedence_le op
      -- carry on with a longer tree in hand
      have next : ∀ {ts₂ rest' : List Tok} {e' : Expr} {j' : ℕ}, j' = precedence op →
          rest = ts₂ ++ rest' → Derives j' (ts₁ ++ ⟨op, lex⟩ :: ts₂) e' → Follows j' rest' →
          Readable k (ts₁ ++ ⟨op, lex⟩ :: rest) := by
        intro ts₂ rest' e' j' hj' hrest hd' hf'
        have hshort : rest'.length < n := by
          have := congrArg length hrest
          simp only [length_append] at this
          omega
        have := loop rest'.length hshort rest' rfl (by omega) hd' (by omega) hf'
        rwa [append_assoc, cons_append, ← hrest] at this
      have hbreak : ∀ {e' : Expr} {j' : ℕ}, j' = precedence op →
          Broken j' (ts₁ ++ ⟨op, lex⟩ :: rest) e' → Readable k (ts₁ ++ ⟨op, lex⟩ :: rest) :=
        fun hj' h => Or.inr ⟨_, h.lower hk (by omega)⟩
      by_cases h2 : precedence op = 2
      · have h3j : 3 ≤ j := by rcases hf with h | h <;> omega
        cases htarget : e.target with
        | none => exact hbreak h2.symm (.target h2 (hd.lower (by omega) h3j) htarget)
        | some x =>
          have hd' := hd.of_var (eq_var_of_target htarget)
          rcases ih rest (by omega) 2 (by omega) (by omega) with
            ⟨ts₂, rest', e', hrest, he', hf'⟩ | ⟨e', hb⟩
          · exact next h2.symm hrest (.assign h2 hd' he') (Or.inl (by omega))
          · exact hbreak h2.symm (.assign h2 hd' hb)
      by_cases h3 : precedence op = 3
      · obtain rfl : op = .question := by
          cases op <;> first | rfl | (exact absurd h3 (by decide))
        have hd' : Derives 4 ts₁ e := hd.lower (by omega) (by rcases hf with h | h <;> omega)
        rcases ih rest (by omega) 1 (by omega) (by omega) with
          ⟨ts₂, rest', a, hrest, ha, hf'⟩ | ⟨a, hb⟩
        · have hlen' := congrArg length hrest
          simp only [length_append] at hlen'
          cases hr : rest' with
          | nil =>
            subst hr
            rw [hrest] at hbreak ⊢
            exact hbreak h3.symm (.colon hd' ha (by simp [Stops]) (by simp))
          | cons t rest'' =>
            subst hr
            obtain ⟨op', lex'⟩ := t
            have hstops : Stops (⟨op', lex'⟩ :: rest'') := by
              intro t ht
              cases ht
              have : precedence op' < 1 := hf'
              simp only
              omega
            by_cases hcol : op' = .colon
            · subst hcol
              simp only [length_cons] at hlen'
              rcases ih rest'' (by omega) 3 (by omega) (by omega) with
                ⟨ts₃, rest₃, b, hrest₃, hb, hf₃⟩ | ⟨b, hb⟩
              · have hrest' : rest = (ts₂ ++ ⟨.colon, lex'⟩ :: ts₃) ++ rest₃ := by
                  rw [hrest, hrest₃]
                  simp
                exact next h3.symm hrest' (.cond hd' ha hb) (Or.inl hf₃)
              · rw [hrest] at hbreak ⊢
                exact hbreak h3.symm (.last hd' ha hb)
            · rw [hrest] at hbreak ⊢
              exact hbreak h3.symm (.colon hd' ha hstops (by rintro t ⟨⟩; exact hcol))
        · exact hbreak h3.symm (.middle hd' hb)
      · have hop : BinaryAt (precedence op) op := ⟨rfl, by omega⟩
        have hd' := hd.lower (by omega) hle
        rcases ih rest (by omega) (precedence op + 1) (by omega) (by omega) with
          ⟨ts₂, rest', e', hrest, he', hf'⟩ | ⟨e', hb⟩
        · refine next rfl hrest (.binary hop hd' he') ?_
          rcases Nat.lt_or_ge (headPrec rest') (precedence op) with h | h
          · exact Or.inl h
          · exact Or.inr ⟨by omega, h2, h3⟩
        · exact hbreak rfl (.binary hop hd' hb)

theorem readable (ts : List Tok) : ∀ k, 1 ≤ k → k ≤ 14 → Readable k ts := by
  induction hlen : ts.length using Nat.strong_induction_on generalizing ts with
  | _ n ih =>
    intro k hk hk14
    have ih' : ∀ ts' : List Tok, ts'.length < n → ∀ k, 1 ≤ k → k ≤ 14 → Readable k ts' :=
      fun ts' h => ih ts'.length h ts' rfl
    have hmissing : (∀ t ∈ ts.head?, t.startsOperand = false) → Readable k ts := fun h =>
      Or.inr ⟨.hole, (Broken.operand h).lower hk hk14⟩
    cases ts with
    | nil => exact hmissing (by simp)
    | cons t ts =>
      simp only [length_cons] at hlen
      -- once the operand is read, the loop takes over
      have hloop : ∀ {ts₁ rest : List Tok} {e : Expr}, t :: ts = ts₁ ++ rest →
          rest.length ≤ n → Derives 14 ts₁ e → Readable k (t :: ts) := by
        intro ts₁ rest e heq hle hd
        rw [heq]
        exact readable_loop hk ih' rest hle hd hk14 (Or.inl (by have := headPrec_le rest; omega))
      by_cases hst : t.startsOperand = true
      · obtain ⟨op, lex⟩ := t
        unfold Tok.startsOperand at hst
        by_cases hn : op = .number
        · subst hn
          obtain ⟨m, hm⟩ := Option.isSome_iff_exists.mp hst
          exact hloop (singleton_append).symm (by omega) (.number hm)
        by_cases hx : op = .name
        · subst hx
          exact hloop (singleton_append).symm (by omega) .name
        by_cases hp : op = .lparen
        · subst hp
          rcases ih' ts (by omega) 1 le_rfl (by omega) with
            ⟨ts₂, rest, e, hrest, he, hf⟩ | ⟨e, hb⟩
          · have hstops : Stops rest := by
              intro t ht
              cases rest with
              | nil => cases ht
              | cons t' rest =>
                cases ht
                have : precedence t.kind < 1 := hf
                omega
            cases hr : rest with
            | nil =>
              subst hr
              rw [hrest]
              exact Or.inr ⟨_, (Broken.unclosed he hstops (by simp)).lower hk hk14⟩
            | cons t' rest' =>
              subst hr
              by_cases hclose : t'.kind = .rparen
              · obtain ⟨k', lex'⟩ := t'
                simp only at hclose
                subst hclose
                have hlen' := congrArg length hrest
                simp only [length_append, length_cons] at hlen'
                have heq : (⟨.lparen, lex⟩ : Tok) :: ts
                    = (⟨.lparen, lex⟩ :: (ts₂ ++ [⟨.rparen, lex'⟩])) ++ rest' := by
                  rw [hrest]
                  simp
                exact hloop heq (by omega) (Derives.paren he)
              · rw [hrest]
                exact Or.inr ⟨_, (Broken.unclosed he hstops
                  (by rintro t ⟨⟩; exact hclose)).lower hk hk14⟩
          · exact Or.inr ⟨e, (Broken.inside hb).lower hk hk14⟩
        · have hu : unaryToken op = true := by
            cases op <;> first | exact hst | exact absurd rfl hn | exact absurd rfl hx |
              exact absurd rfl hp
          rcases ih' ts (by omega) 14 (by omega) le_rfl with
            ⟨ts₂, rest, e, hrest, he, -⟩ | ⟨e, hb⟩
          · have hlen' := congrArg length hrest
            simp only [length_append] at hlen'
            have heq : (⟨op, lex⟩ : Tok) :: ts = (⟨op, lex⟩ :: ts₂) ++ rest := by rw [hrest]; rfl
            exact hloop heq (by omega) (Derives.unary hu he)
          · exact Or.inr ⟨_, (Broken.unary hu hb).lower hk hk14⟩
      · exact hmissing (by rintro t' ⟨⟩; simpa using hst)

/-- **Every token list has a tree, complete or broken.** -/
theorem reading_total (ts : List Tok) : ∃ e, Reading ts e := by
  by_cases hne : ts = []
  · exact ⟨.num 0, hne ▸ .blank⟩
  · rcases readable ts 1 le_rfl (by omega) with ⟨ts₁, rest, e, hrest, hd, hf⟩ | ⟨e, hb⟩
    · cases rest with
      | nil => exact ⟨e, .complete (by rw [hrest, append_nil]; exact hd)⟩
      | cons t rest =>
        refine ⟨.stop e, hrest ▸ .trailing hd ?_⟩
        have : precedence t.kind < 1 := hf
        omega
    · exact ⟨e, .broken hne hb⟩

/-! ### The entry point -/

/-- The parser `csh_arith_eval` starts with. -/
def startParser (s : State F) (text : Bytes) : Parser F :=
  { next := text, state := s, options := s.info.options }

theorem at_start (s : State F) (text : Bytes) :
    At (nextToken (startParser s text)) (tokens text) :=
  ⟨rfl, rfl, stream_nextToken _⟩

theorem remaining_start (s : State F) (text : Bytes) :
    remaining (nextToken (startParser s text)) ≤ text.length := by
  unfold remaining
  rcases scan_next_length text with ⟨ht, hn⟩ | ⟨ht, hn⟩
  · rw [if_pos (show (nextToken (startParser s text)).token = .eot from ht)]
    rw [show (nextToken (startParser s text)).next = [] from hn]
    exact Nat.zero_le _
  · rw [if_neg (show ¬ (nextToken (startParser s text)).token = .eot from ht)]
    exact hn

/-- The fuel of the entry point is enough to get the answer. -/
theorem expression_start {s : State F} {text : Bytes} {execute : Bool} {q : Parser F × Value}
    (h : Returns (fun n => expression n (nextToken (startParser s text)) 1 execute) q) :
    expression (enoughFuel text) (nextToken (startParser s text)) 1 execute = some q := by
  have hr := remaining_start s text
  obtain ⟨q', hq'⟩ := expression_enough (p := nextToken (startParser s text)) le_rfl execute
    (n := enoughFuel text) (by unfold enoughFuel; omega)
  rw [hq', h.eq_of_some (expression_mono _ _ _) hq']

theorem derives_ne_nil (h : Derives k ts e) : ts ≠ [] := by
  induction h with
  | lift _ _ ih => exact ih
  | _ => simp

/-- Only an expression or a blank text has a value. -/
theorem complete_of_eval (h : Reading ts e) {s : State F}
    {r : ℤ × State F} (hv : eval e s = .ok r) : Derives 1 ts e ∨ ts = [] ∧ e = .num 0 := by
  have hholed : e.holed = true → False := by
    intro hh
    obtain ⟨c, hc⟩ := outcome_of_holed hh true s
    rw [eval, force_error (show designate e s = .error c from hc)] at hv
    cases hv
  cases h with
  | blank => exact Or.inr ⟨rfl, rfl⟩
  | complete h => exact Or.inl h
  | broken _ h => exact absurd (holed_of_broken h) hholed
  | trailing => exact absurd rfl hholed

/-- `run` from a computation that has the outcome of a tree. -/
theorem run_of_computes {s : State F} {text : Bytes}
    (hne : tokens text ≠ [])
    (h : Computes (fun n => expression n (nextToken (startParser s text)) 1 true) true e s rest) :
    match eval (if rest = [] then e else .stop e) s with
    | .ok (v, s') => ∃ p : Parser F, run (enoughFuel text) (startParser s text) true = some (p, v) ∧
        p.error = .ok ∧ p.state = s'
    | .error c => ∃ (p : Parser F) (n : ℤ),
        run (enoughFuel text) (startParser s text) true = some (p, n) ∧ p.error = c ∧ c ≠ .ok := by
  have htok : (nextToken (startParser s text)).token ≠ .eot := by
    intro hend
    have hs := (at_start s text).ahead
    rw [stream, if_pos hend] at hs
    exact hne hs.symm
  have hstop : outcome true (.stop e) s = designate (.stop e) s := rfl
  rw [outcome_stop] at hstop
  unfold Computes at h
  unfold run
  simp only [htok, ne_eq, not_false_eq_true, if_true]
  cases ho : outcome true e s with
  | error c =>
    rw [ho] at h hstop
    obtain ⟨hc, p, left, hp, hret⟩ := h
    have herr : eval (if rest = [] then e else .stop e) s = .error c := by
      split
      · exact force_error ho
      · exact force_error hstop.symm
    have hpe : p.error ≠ .ok := by rw [hp]; exact hc
    rw [herr, expression_start hret]
    simp only [Option.bind_eq_bind, Option.bind_some, hpe, false_and, if_false]
    exact ⟨p, 0, rfl, hp, hc⟩
  | ok os =>
    obtain ⟨o, s'⟩ := os
    rw [ho] at h hstop
    obtain ⟨p, left, hat, rfl, hreach, hret⟩ := h
    rw [expression_start hret]
    simp only [Option.bind_eq_bind, Option.bind_some, hat.live, true_and]
    cases rest with
    | nil =>
      have hread := readValue_reached hreach hat ho
      simp only [hat.nil, not_true_eq_false, if_false, if_true, hat.live]
      rw [show eval e s = outcomeRead true e s from rfl]
      cases hv : outcomeRead true e s with
      | error c =>
        rw [hv] at hread
        rw [hread.2]
        exact ⟨{ p with error := c }, 0, rfl, rfl, hread.1⟩
      | ok ns =>
        rw [hv] at hread
        rw [hread.1]
        exact ⟨p, rfl, hat.live, hread.2⟩
    | cons t rest =>
      have hne' := hat.cons.2.2.1
      have herr : eval (.stop e) s = .error .syntaxError := force_error hstop.symm
      simp only [hne', not_false_eq_true, if_true, reduceCtorEq, if_false]
      rw [herr]
      exact ⟨{ p with error := .syntaxError }, 0, rfl, rfl, by decide⟩

/-- `run` on a text has the outcome of the text's tree. -/
theorem run_of_reading {s : State F} {text : Bytes} (h : Reading (tokens text) e) :
    match eval e s with
    | .ok (v, s') => ∃ p : Parser F, run (enoughFuel text) (startParser s text) true = some (p, v) ∧
        p.error = .ok ∧ p.state = s'
    | .error c => ∃ (p : Parser F) (n : ℤ),
        run (enoughFuel text) (startParser s text) true = some (p, n) ∧ p.error = c ∧ c ≠ .ok := by
  have hat := at_start s text
  generalize hts : tokens text = ts at h
  cases h with
  | blank =>
    rw [hts] at hat
    refine ⟨nextToken (startParser s text), ?_, rfl, rfl⟩
    unfold run
    simp only [hat.nil, ne_eq, not_true_eq_false, if_false, and_false, Option.bind_eq_bind,
      Option.bind_some]
    rfl
  | complete hd =>
    rw [hts] at hat
    by_cases hne : tokens text = []
    · -- no expression is empty
      rw [hts] at hne
      subst hne
      exact absurd rfl (derives_ne_nil hd)
    · rw [← append_nil ts] at hat
      have hend : headPrec [] < 1 := Nat.zero_lt_one
      have hcomp := (arrives_of_derives hd le_rfl (Or.inl hend) true hat).computes hend
      simpa using run_of_computes hne hcomp
  | broken hne hb =>
    rw [hts] at hat
    have hcomp := (arrives_of_broken hb le_rfl true hat).computes Nat.zero_lt_one
    simpa using run_of_computes (hts ▸ hne) hcomp
  | @trailing ts₁ t rest e' hd ht =>
    rw [hts] at hat
    have hprec : headPrec (t :: rest) < 1 := by rw [headPrec, ht]; exact Nat.zero_lt_one
    have hcomp := (arrives_of_derives hd le_rfl (Or.inl hprec) true hat).computes hprec
    simpa using run_of_computes (by rw [hts]; simp) hcomp

/-- **`csh_arith_eval` succeeds and fails as the reference does.**  In a state a
shell can be in, it returns `CSH_ARITH_OK` with a value and a final state exactly
when the text is an expression (or blank) of that value and final state, and an
error class exactly when that is the class of the text's first failure. -/
theorem arithEval_correct (s : State F) (hs : s.Reachable) (text : Bytes) :
    (∀ v s', arithEval s text = ⟨.ok, some v, s'⟩ ↔ Succeeds text s v s') ∧
    (∀ c, c ≠ .ok → ((arithEval s text).result = c ↔ Fails text s c)) := by
  -- whatever tree the text has, the evaluator has its outcome
  have hrun : ∀ e, Reading (tokens text) e →
      match eval e s with
      | .ok (v, s') => arithEval s text = ⟨.ok, some v, s'⟩
      | .error c => (arithEval s text).result = c ∧ c ≠ .ok := by
    intro e he
    have h := run_of_reading (s := s) he
    unfold arithEval
    rw [hs.save_eq]
    simp only [show ({ next := text, state := s, options := s.info.options } : Parser F)
      = startParser s text from rfl]
    cases hv : eval e s with
    | error c =>
      rw [hv] at h
      obtain ⟨p, n, hp, herr, hc⟩ := h
      have hpe : p.error ≠ .ok := by rw [herr]; exact hc
      simp only [hp, hpe, if_false]
      exact ⟨herr, hc⟩
    | ok vs =>
      obtain ⟨v, s'⟩ := vs
      rw [hv] at h
      obtain ⟨p, hp, herr, hst⟩ := h
      simp only [hp, herr, if_true, hst]
  obtain ⟨e, he⟩ := reading_total (tokens text)
  constructor
  · intro v s'
    constructor
    · intro hok
      have h := hrun e he
      cases hv : eval e s with
      | error c =>
        rw [hv] at h
        rw [hok] at h
        exact absurd h.1.symm h.2
      | ok vs =>
        rw [hv] at h
        simp only [hok, Outcome.mk.injEq, Option.some.injEq, true_and] at h
        obtain ⟨rfl, rfl⟩ := h
        refine ⟨tokens text, e, tokenises_tokens text, ?_, hv⟩
        -- a tree with a value has no hole
        exact complete_of_eval he hv
    · rintro ⟨ts, e', hts, hd, hv⟩
      rw [tokenises_iff] at hts
      subst hts
      have he' : Reading (tokens text) e' := by
        rcases hd with hd | ⟨hnil, rfl⟩
        · exact .complete hd
        · rw [hnil]; exact .blank
      have h := hrun e' he'
      rw [hv] at h
      exact h
  · intro c hc
    constructor
    · intro hres
      have h := hrun e he
      cases hv : eval e s with
      | error c' =>
        rw [hv] at h
        exact ⟨tokens text, e, tokenises_tokens text, he, by rw [hv, ← hres, h.1]⟩
      | ok vs =>
        rw [hv] at h
        simp only [h] at hres
        exact absurd hres.symm hc
    · rintro ⟨ts, e', hts, hd, hv⟩
      rw [tokenises_iff] at hts
      subst hts
      have h := hrun e' hd
      rw [hv] at h
      exact h.1

/-- In a fresh shell, `1+2*3` is seven, and the division of `1/0)` fails before the
stray parenthesis is met. -/
theorem arithEval_correct_fresh : ∃ s : State Unit, s.Reachable ∧
    Succeeds (ascii "1+2*3") s 7 s ∧ Fails (ascii "1/0)") s .range := by
  have hs : (State.create [] [] [] 1 .stdin 0 false : State Unit).Reachable := .create ..
  exact ⟨_, hs, ((arithEval_correct _ hs (ascii "1+2*3")).1 7 _).mp rfl,
    ((arithEval_correct _ hs (ascii "1/0)")).2 .range (by decide)).mp rfl⟩

end Arithmetic
end CShell
