import CShell.Arithmetic.Agreement

/-!
# Texts that may still become an expression

A probe that fails at the end of its text says so in a flag.  Behind a token
boundary the flag is exact.  A probe of a longer text goes the same way up to the
end of the shorter one: what was read stays, and a failure before the end stays.
Where the end was met too early, every call that is still waiting can be satisfied:
a `1` where an operand is missing, a parenthesis or a colon where that is missing,
and the callers go on behind it.

## Main definitions

* `Parser.extend tail p` — the parser `p` with more text behind its own.
* `Extension x p` — what the call `x` does with more text.

## Main results

* `extension_all` — the calls of the probe.
* `arithProbePrefix_iff` — **the flag is set exactly for the texts that can be
  continued to an expression.**
-/

namespace CShell
namespace Arithmetic

open Fuel

variable {F : Type} {p : Parser F} {left : Value} {minimum : ℕ}

/-! ### More text -/

/-- The text ends what is open in front of it: no operator takes it up. -/
def Closes (tail : Bytes) : Prop := precedence (scan tail).token = 0

/-- The parser in front of another text. -/
def Parser.onto (p : Parser F) (tail : Bytes) : Parser F := nextToken { p with next := tail }

/-- The parser with a blank and more text behind its own. -/
def Parser.extend (tail : Bytes) (p : Parser F) : Parser F :=
  if p.token = .eot then p.onto tail else { p with next := p.next ++ byteOf ' ' :: tail }

theorem scan_blank (tail : Bytes) : scan (byteOf ' ' :: tail) = scan tail := scan_space rfl

theorem operators_blank : ∀ op ∈ operators, byteOf ' ' ∉ op.1 := by decide

variable {tail text : Bytes} {r : Parser Unit × Value}

/-- A blank ends every operator. -/
theorem operator_prefix_extend {op : Bytes × Token} (hop : op ∈ operators)
    (h : op.1 <+: text ++ byteOf ' ' :: tail) : op.1 <+: text := by
  by_cases hle : op.1.length ≤ text.length
  · exact List.prefix_of_prefix_length_le h (List.prefix_append _ _) hle
  · -- a longer operator would contain the blank
    obtain ⟨rest, hrest⟩ := h
    have hat : (op.1 ++ rest)[text.length]? = some (byteOf ' ') := by simp [hrest]
    rw [List.getElem?_append_left (Nat.not_le.mp hle)] at hat
    exact absurd (List.mem_of_getElem? hat) (operators_blank op hop)

/-- A blank ends every token. -/
theorem scan_extend (text tail : Bytes) :
    scan (text ++ byteOf ' ' :: tail) =
      if (scan text).token = .eot then scan tail
      else ⟨(scan text).token, (scan text).lexeme, (scan text).next ++ byteOf ' ' :: tail⟩ := by
  induction text with
  | nil => exact scan_blank tail
  | cons byte rest ih =>
    rcases front_cases (byte :: rest) with h | ⟨b, r, h, hs⟩ | ⟨w, r, h, hne, hw, hmax⟩ |
      ⟨o, k, r, h, hop, hmax⟩ | ⟨b, r, h, hs, hn, hop⟩
    · cases h
    · cases h
      rw [List.cons_append, scan_space hs, scan_space hs]
      exact ih
    · have hmax' : ∀ b ∈ (r ++ byteOf ' ' :: tail).head?, nameByte b = false := by
        cases r with
        | nil =>
          intro b hb
          obtain rfl : byteOf ' ' = b := Option.some.inj hb
          rfl
        | cons c r => exact hmax
      rw [h, List.append_assoc, scan_word hne hw hmax', scan_word hne hw hmax,
        if_neg (wordKind_ne_eot w)]
    · have hmax' : ∀ o' k', (o', k') ∈ operators → o' <+: o ++ (r ++ byteOf ' ' :: tail) →
          o'.length ≤ o.length := by
        intro o' k' hop' hpre
        rw [← List.append_assoc] at hpre
        exact hmax o' k' hop' (operator_prefix_extend hop' hpre)
      rw [h, List.append_assoc, scan_operator hop hmax', scan_operator hop hmax,
        if_neg (operators_kind _ hop)]
    · cases h
      have hop' : ∀ o k, (o, k) ∈ operators → ¬ o <+: byte :: (rest ++ byteOf ' ' :: tail) := by
        intro o k hmem hpre
        exact hop o k hmem (operator_prefix_extend hmem hpre)
      rw [List.cons_append, scan_stray hs hn hop', scan_stray hs hn hop, if_neg (by simp)]

/-! ### The parser -/

@[simp] theorem onto_token (p : Parser F) (tail : Bytes) :
    (p.onto tail).token = (scan tail).token := rfl

@[simp] theorem nextToken_onto (p : Parser F) (tail : Bytes) :
    (nextToken p).onto tail = p.onto tail := rfl

theorem extend_eot (h : p.token = .eot) (tail : Bytes) : p.extend tail = p.onto tail := if_pos h

theorem extend_error (p : Parser F) (tail : Bytes) : (p.extend tail).error = p.error := by
  unfold Parser.extend
  split <;> rfl

theorem extend_token (h : p.token ≠ .eot) (tail : Bytes) : (p.extend tail).token = p.token := by
  rw [Parser.extend, if_neg h]

theorem extend_lexeme (h : p.token ≠ .eot) (tail : Bytes) : (p.extend tail).lexeme = p.lexeme := by
  rw [Parser.extend, if_neg h]

/-- The next token is found where it was, or in the added text. -/
theorem nextToken_extend (h : p.token ≠ .eot) (tail : Bytes) :
    nextToken (p.extend tail) = (nextToken p).extend tail := by
  have hscan := scan_extend p.next tail
  rw [Parser.extend, if_neg h]
  by_cases ht : (scan p.next).token = .eot
  · rw [if_pos ht] at hscan
    rw [extend_eot (p := nextToken p) ht]
    simp only [nextToken, Parser.onto, hscan]
  · rw [if_neg ht] at hscan
    rw [Parser.extend, if_neg (show ¬ (nextToken p).token = .eot from ht)]
    simp only [nextToken, hscan]

/-! ### What a call does with more text -/

/-- The results of a call. -/
abbrev Call (F : Type) := Parser F → Parser F × Value → Prop

/-- The parser has met nothing wrong. -/
def Live (p : Parser F) : Prop := p.error = .ok ∧ p.incomplete = false

theorem Live.nextToken (h : Live p) : Live (nextToken p) := h

/-- What a call does with more text: it goes on from where it came, fails as it
did, or, if the end came too early, can be completed. -/
inductive Extension (x : Call F) (p : Parser F) : Prop
  | continues {q : Parser F} {v : Value} (live : Live q) (less : remaining q ≤ remaining p)
      (ends : p.token = .eot → q.token = .eot) (same : ∀ tail, q.onto tail = p.onto tail)
      (result : x p (q, v))
      (extended : ∀ tail, (q.token = .eot → Closes tail) → x (p.extend tail) (q.extend tail, v))
  | fails {q : Parser F × Value} (ahead : p.token ≠ .eot) (result : x p q)
      (failed : q.1.error ≠ .ok) (complete : q.1.incomplete = false)
      (extended : ∀ tail, ∃ r, x (p.extend tail) r ∧ r.1.error ≠ .ok)
  | stops {q : Parser F × Value} (result : x p q) (failed : q.1.error ≠ .ok)
      (incomplete : q.1.incomplete = true) {completion : Bytes} (nul : (0 : UInt8) ∉ completion)
      (extended : ∀ tail, Closes tail → ∃ v, x (p.extend (completion ++ tail)) (p.onto tail, v))

/-- A call that starts behind the current token. -/
theorem Extension.behind {x : Call F} (h : Extension x (nextToken p)) (ht : p.token ≠ .eot) :
    Extension (fun p => x (nextToken p)) p := by
  have hless := remaining_nextToken ht
  cases h with
  | continues live less ends same result extended =>
    refine .continues live (by omega) (fun h => absurd h ht) same result fun tail htail => ?_
    rw [nextToken_extend ht]
    exact extended tail htail
  | fails ahead result failed complete extended =>
    refine .fails ht result failed complete fun tail => ?_
    rw [nextToken_extend ht]
    exact extended tail
  | stops result failed incomplete nul extended =>
    refine .stops result failed incomplete nul fun tail htail => ?_
    rw [nextToken_extend ht]
    exact extended tail htail

/-- A call with the results of another, in front of the same token. -/
theorem Extension.imp {x z : Call F} {Q : Parser F → Prop} (hx : Extension x p) (hp : Q p)
    (hext : ∀ tail, Q (p.extend tail)) (h : ∀ p' r, Q p' → x p' r → z p' r) : Extension z p := by
  cases hx with
  | continues live less ends same result extended =>
    exact .continues live less ends same (h _ _ hp result) fun tail htail =>
      h _ _ (hext tail) (extended tail htail)
  | fails ahead result failed complete extended =>
    refine .fails ahead (h _ _ hp result) failed complete fun tail => ?_
    obtain ⟨r, hr, herr⟩ := extended tail
    exact ⟨r, h _ _ (hext tail) hr, herr⟩
  | stops result failed incomplete nul extended =>
    refine .stops (h _ _ hp result) failed incomplete nul fun tail htail => ?_
    obtain ⟨v, hv⟩ := extended tail htail
    exact ⟨v, h _ _ (hext _) hv⟩

/-- A call made of two: the second goes on where the first one ended, and can be
satisfied at the end of the text. -/
theorem Extension.bind {x z : Call F} {y : Value → Call F} {Q : Parser F → Prop} {c : Bytes}
    (hx : Extension x p) (hlive : Live p) (hp : Q p)
    (hext : ∀ tail, Q (p.extend tail))
    (go : ∀ p' q r, Q p' → x p' q → q.1.error = .ok → y q.2 q.1 r → z p' r)
    (stop : ∀ p' q, Q p' → x p' q → q.1.error ≠ .ok → ∃ v, z p' (q.1, v))
    (hy : ∀ q v, Live q → remaining q ≤ remaining p → Extension (y v) q)
    (nul : (0 : UInt8) ∉ c)
    (done : ∀ tail, Closes tail → Closes (c ++ tail) ∧
      ∀ v, ∃ w, y v (p.onto (c ++ tail)) (p.onto tail, w)) :
    Extension z p := by
  cases hx with
  | @continues q v live less ends same result extended =>
    cases hy q v live less with
    | @continues r w live' less' ends' same' result' extended' =>
      refine .continues live' (less'.trans less) (ends' ∘ ends)
        (fun tail => (same' tail).trans (same tail)) (go p _ _ hp result live.1 result') ?_
      intro tail htail
      exact go _ _ _ (hext tail) (extended tail (htail ∘ ends'))
        ((extend_error q tail).trans live.1) (extended' tail htail)
    | @fails r ahead result' failed complete extended' =>
      refine .fails (fun h => ahead (ends h)) (go p _ _ hp result live.1 result') failed complete ?_
      intro tail
      obtain ⟨s, hs, herr⟩ := extended' tail
      exact ⟨s, go _ _ _ (hext tail) (extended tail fun h => absurd h ahead)
        ((extend_error q tail).trans live.1) hs, herr⟩
    | @stops r result' failed incomplete c' nul' extended' =>
      have hresult := go p _ _ hp result live.1 result'
      by_cases hq : q.token = .eot
      · refine .stops hresult failed incomplete nul fun tail htail => ?_
        obtain ⟨hcloses, hdone⟩ := done tail htail
        obtain ⟨w, hw⟩ := hdone v
        have hfirst := extended (c ++ tail) fun _ => hcloses
        rw [extend_eot hq, same] at hfirst
        exact ⟨w, go _ _ _ (hext _) hfirst hlive.1 hw⟩
      · refine .stops hresult failed incomplete nul' fun tail htail => ?_
        obtain ⟨w, hw⟩ := extended' tail htail
        rw [same] at hw
        exact ⟨w, go _ _ _ (hext _) (extended _ fun h => absurd h hq)
          ((extend_error q _).trans live.1) hw⟩
  | @fails q ahead result failed complete extended =>
    obtain ⟨v, hv⟩ := stop p _ hp result failed
    refine .fails ahead hv failed complete fun tail => ?_
    obtain ⟨r, hr, herr⟩ := extended tail
    obtain ⟨w, hw⟩ := stop _ r (hext tail) hr herr
    exact ⟨_, hw, herr⟩
  | @stops q result failed incomplete c' nul' extended =>
    obtain ⟨v, hv⟩ := stop p _ hp result failed
    have hnul : (0 : UInt8) ∉ c' ++ c :=
      fun h => (List.mem_append.mp h).elim nul' nul
    refine .stops hv failed incomplete hnul fun tail htail => ?_
    obtain ⟨hcloses, hdone⟩ := done tail htail
    obtain ⟨u, hu⟩ := extended _ hcloses
    obtain ⟨w, hw⟩ := hdone u
    rw [List.append_assoc]
    exact ⟨w, go _ _ _ (hext _) hu hlive.1 hw⟩

/-! ### Calls that stop or fail at once -/

/-- A call that rejects every token of this kind, and is satisfied by the
completion where it meets the end. -/
theorem extension_reject {x : Call F} {v : Value} {completion : Bytes}
    (hx : ∀ p', p'.token = p.token → x p' (reject p', v)) (nul : (0 : UInt8) ∉ completion)
    (done : p.token = .eot → ∀ tail, Closes tail →
      ∃ w, x (p.onto (completion ++ tail)) (p.onto tail, w)) : Extension x p := by
  by_cases ht : p.token = .eot
  · refine .stops (hx p rfl) (by simp [reject]) (by simp [reject, ht]) nul fun tail htail => ?_
    rw [extend_eot ht]
    exact done ht tail htail
  · refine .fails ht (hx p rfl) (by simp [reject]) (by simp [reject, ht]) fun tail => ?_
    exact ⟨_, hx _ (extend_token ht tail), by simp [reject]⟩

/-- A call that takes the current token and is done. -/
theorem extension_take {x : Call F} {v : Value} (hlive : Live p) (ht : p.token ≠ .eot)
    (hx : ∀ p', p'.token = p.token → p'.lexeme = p.lexeme → x p' (nextToken p', v)) :
    Extension x p := by
  refine .continues hlive.nextToken (remaining_nextToken ht).le (fun h => absurd h ht)
    (nextToken_onto p) (hx p rfl rfl) fun tail _ => ?_
  rw [← nextToken_extend ht]
  exact hx _ (extend_token ht tail) (extend_lexeme ht tail)

/-! ### The calls of the probe -/

/-- `primary` in a probe. -/
def probePrimary : Call F := fun p r => Returns (fun n => primary n p false) r

/-- `expression` in a probe. -/
def probeExpression (minimum : ℕ) : Call F :=
  fun p r => Returns (fun n => expression n p minimum false) r

/-- The loop of `expression` in a probe. -/
def probeClimb (minimum : ℕ) (left : Value) : Call F :=
  fun p r => Returns (fun n => climb n p left minimum false) r

/-- What `primary` does behind the expression in a parenthesis. -/
def probeParen (v : Value) : Call F :=
  fun p r => r = if p.token ≠ .rparen then (reject p, v) else (nextToken p, v)

theorem scan_paren (tail : Bytes) :
    scan (ascii ") " ++ tail) = ⟨.rparen, ascii ")", byteOf ' ' :: tail⟩ := by
  have h : scan (ascii ")" ++ byteOf ' ' :: tail) = _ := scan_extend (ascii ")") tail
  have hscan : scan (ascii ")") = ⟨.rparen, ascii ")", []⟩ := by decide
  rw [hscan, if_neg (by simp)] at h
  exact h

theorem scan_one (tail : Bytes) :
    scan (ascii "1 " ++ tail) = ⟨.number, ascii "1", byteOf ' ' :: tail⟩ := by
  have h : scan (ascii "1" ++ byteOf ' ' :: tail) = _ := scan_extend (ascii "1") tail
  have hscan : scan (ascii "1") = ⟨.number, ascii "1", []⟩ := by decide
  rw [hscan, if_neg (by simp)] at h
  exact h

theorem scan_colon (tail : Bytes) :
    scan (ascii ": 1 " ++ tail) = ⟨.colon, ascii ":", byteOf ' ' :: (ascii "1 " ++ tail)⟩ := by
  have h : scan (ascii ":" ++ byteOf ' ' :: (ascii "1 " ++ tail)) = _ :=
    scan_extend (ascii ":") (ascii "1 " ++ tail)
  have hscan : scan (ascii ":") = ⟨.colon, ascii ":", []⟩ := by decide
  rw [hscan, if_neg (by simp)] at h
  exact h

/-- Past the first token of a text that ends in a blank. -/
theorem nextToken_onto_of_scan {token : Token} {lexeme : Bytes}
    (h : scan text = ⟨token, lexeme, byteOf ' ' :: tail⟩) :
    nextToken (p.onto text) = p.onto tail := by
  simp only [Parser.onto, nextToken, h, scan_blank]

/-- A missing operand is there. -/
theorem primary_one (p : Parser F) (tail : Bytes) :
    ∃ v, probePrimary (p.onto (ascii "1 " ++ tail)) (p.onto tail, v) := by
  have hscan := scan_one tail
  have htoken : (p.onto (ascii "1 " ++ tail)).token = .number := by rw [onto_token, hscan]
  have hlexeme : (p.onto (ascii "1 " ++ tail)).lexeme = ascii "1" := congrArg Scan.lexeme hscan
  have hliteral : literal (p.onto (ascii "1 " ++ tail)).lexeme = some { number := 1 } := by
    rw [hlexeme]
    decide
  refine ⟨{ number := 1 }, ?_⟩
  rw [← nextToken_onto_of_scan hscan]
  exact primary_number htoken false hliteral

theorem climb_closes (htail : Closes tail) (hmin : 1 ≤ minimum)
    (left : Value) : probeClimb minimum left (p.onto tail) (p.onto tail, left) := by
  refine climb_done fun h => ?_
  have hprec : precedence (p.onto tail).token = 0 := htail
  omega

theorem expression_one (hlive : Live p) (htail : Closes tail) (hmin : 1 ≤ minimum) :
    ∃ v, probeExpression minimum (p.onto (ascii "1 " ++ tail)) (p.onto tail, v) := by
  obtain ⟨v, hv⟩ := primary_one p tail
  exact ⟨v, expression_returns hlive.1 hv (climb_closes htail hmin v)⟩

/-- A missing parenthesis is there. -/
theorem paren_closed (p : Parser F) (tail : Bytes) (v : Value) :
    probeParen v (p.onto (ascii ") " ++ tail)) (p.onto tail, v) := by
  have hscan := scan_paren tail
  have htoken : (p.onto (ascii ") " ++ tail)).token = .rparen := by rw [onto_token, hscan]
  rw [probeParen, if_neg (fun h => h htoken), nextToken_onto_of_scan hscan]

theorem extension_paren (hlive : Live p) (v : Value) : Extension (probeParen v) p := by
  by_cases ht : p.token = .rparen
  · refine extension_take (v := v) hlive (by rw [ht]; decide) fun p' htoken _ => ?_
    rw [probeParen, if_neg (by rw [htoken, ht]; decide)]
  · have hnul : (0 : UInt8) ∉ ascii ") " := by decide
    refine extension_reject (v := v) (fun p' htoken => ?_) hnul fun _ tail _ =>
      ⟨v, paren_closed p tail v⟩
    rw [probeParen, if_pos (by rwa [htoken])]

/-- What holds of the calls at a parser. -/
structure Extending (p : Parser F) : Prop where
  expression : ∀ {minimum}, 1 ≤ minimum → Extension (probeExpression minimum) p
  climb : ∀ {minimum} left, 1 ≤ minimum → Extension (probeClimb minimum left) p

section Induction

variable (ih : ∀ q : Parser F, Live q → remaining q < remaining p → Extending q)
include ih

theorem extension_primary (hlive : Live p) : Extension probePrimary p := by
  have hnext : p.token ≠ .eot → Extending (nextToken p) :=
    fun ht => ih _ hlive.nextToken (remaining_nextToken ht)
  by_cases hnumber : p.token = .number
  · have ht : p.token ≠ .eot := by rw [hnumber]; decide
    cases hv : literal p.lexeme with
    | some v =>
      refine extension_take (v := v) hlive ht fun p' htoken hlexeme => ?_
      exact primary_number (htoken.trans hnumber) false ((congrArg literal hlexeme).trans hv)
    | none =>
      have hbad : ∀ p' : Parser F, p'.token = p.token → p'.lexeme = p.lexeme →
          probePrimary p' (nextToken { p' with error := .syntaxError }, {}) := fun p' ht hl =>
        primary_number_bad (ht.trans hnumber) false ((congrArg literal hl).trans hv)
      refine .fails ht (hbad p rfl rfl) (by simp [nextToken]) hlive.2 fun tail => ?_
      exact ⟨_, hbad _ (extend_token ht tail) (extend_lexeme ht tail), by simp [nextToken]⟩
  by_cases hname : p.token = .name
  · have ht : p.token ≠ .eot := by rw [hname]; decide
    refine extension_take (v := { name := some p.lexeme }) hlive ht fun p' htoken hlexeme => ?_
    rw [← hlexeme]
    exact primary_name (htoken.trans hname) false
  by_cases hparen : p.token = .lparen
  · have ht : p.token ≠ .eot := by rw [hparen]; decide
    have hinner := ((hnext ht).expression le_rfl).behind ht
    refine hinner.bind (y := probeParen) (Q := fun p' => p'.token = .lparen) hlive hparen
      (fun tail => (extend_token ht tail).trans hparen) ?_ ?_ (fun q v hq _ => extension_paren hq v)
      (show (0 : UInt8) ∉ ascii ") " by decide) ?_
    · rintro p' q r hp' hq hok rfl
      have h := primary_paren hp' hq
      rwa [if_pos hok] at h
    · intro p' q hp' hq hbad
      have h := primary_paren hp' hq
      rw [if_neg hbad] at h
      exact ⟨q.2, h⟩
    · intro tail htail
      exact ⟨by rw [Closes, scan_paren]; rfl, fun v => ⟨v, paren_closed p tail v⟩⟩
  by_cases hunary : unaryToken p.token = true
  · have ht : p.token ≠ .eot := fun h => by rw [h] at hunary; cases hunary
    have hinner := ((hnext ht).expression (show 1 ≤ 14 by decide)).behind ht
    have happly : ∀ p' (q : Parser F × Value), p'.token = p.token →
        probeExpression 14 (nextToken p') q →
        probePrimary p' (q.1, { q.2 with name := none, high := 0 }) := fun p' q hp' hq => by
      have h := primary_unary (hp' ▸ hunary) hq
      rwa [applyUnary, if_neg (by simp)] at h
    refine hinner.bind (y := fun v q r => r = (q, { v with name := none, high := 0 }))
      (Q := fun p' => p'.token = p.token) (c := []) hlive rfl (extend_token ht) ?_ ?_ ?_ (by simp) ?_
    · rintro p' q r hp' hq _ rfl
      exact happly p' q hp' hq
    · exact fun p' q hp' hq _ => ⟨_, happly p' q hp' hq⟩
    · exact fun q v hq _ => .continues hq le_rfl id (fun _ => rfl) rfl fun _ _ => rfl
    · exact fun tail htail => ⟨htail, fun v => ⟨_, rfl⟩⟩
  · -- no operand: only the end of the text leaves room for one
    refine extension_reject (v := {}) (fun p' ht => ?_) (show (0 : UInt8) ∉ ascii "1 " by decide)
      fun _ tail _ => primary_one p tail
    rw [← ht] at hnumber hname hparen hunary
    exact primary_other hnumber hname hparen (by simpa using hunary) false

/-- The loop behind an operator and its right operand. -/
def probeOperand (k minimum : ℕ) (v : Value) : Call F :=
  fun p r => ∃ q, probeExpression k p q ∧ probeClimb minimum v q.1 r

theorem extension_operand (hlive : Live p) (hmin : 1 ≤ minimum) (ht : p.token ≠ .eot) {k : ℕ}
    (hk : 1 ≤ k) (v : Value) : Extension (probeOperand k minimum v) (nextToken p) := by
  have hless := remaining_nextToken ht
  refine ((ih _ hlive.nextToken hless).expression hk).bind (y := fun _ => probeClimb minimum v)
    (Q := fun _ => True) (c := []) hlive.nextToken trivial (fun _ => trivial) ?_ ?_ ?_ (by simp) ?_
  · exact fun p' q r _ hq _ hr => ⟨q, hq, hr⟩
  · exact fun p' q _ hq hbad => ⟨v, q, hq, climb_of_error hbad v _ _⟩
  · exact fun q _ hq hle => (ih q hq (by omega)).climb v hmin
  · exact fun tail htail => ⟨htail, fun _ => ⟨v, climb_closes htail hmin v⟩⟩

/-- What the loop does behind the middle operand of a conditional. -/
def probeColon (minimum : ℕ) (left : Value) : Call F := fun p r =>
  if p.token ≠ .colon then r = (reject p, left)
  else probeOperand 3 minimum { number := 0 } (nextToken p) r

omit ih in
/-- A missing colon is there, and the operand behind it. -/
theorem colon_one (hlive : Live p) (hmin : 1 ≤ minimum) (htail : Closes tail)
    (left : Value) : ∃ v, probeColon minimum left (p.onto (ascii ": 1 " ++ tail)) (p.onto tail, v) := by
  have hscan := scan_colon tail
  have htoken : (p.onto (ascii ": 1 " ++ tail)).token = .colon := by rw [onto_token, hscan]
  obtain ⟨v, hv⟩ := expression_one hlive htail (show 1 ≤ 3 by decide)
  refine ⟨{ number := 0 }, ?_⟩
  rw [probeColon, if_neg (fun h => h htoken), nextToken_onto_of_scan hscan]
  exact ⟨_, hv, climb_closes htail hmin _⟩

theorem extension_colon (hlive : Live p) (hmin : 1 ≤ minimum) (left : Value) :
    Extension (probeColon minimum left) p := by
  by_cases hcolon : p.token = .colon
  · have ht : p.token ≠ .eot := by rw [hcolon]; decide
    refine ((extension_operand ih hlive hmin ht (show 1 ≤ 3 by decide) { number := 0 }).behind
      ht).imp
      (Q := fun p' => p'.token = .colon) hcolon
      (fun tail => (extend_token ht tail).trans hcolon) fun p' r hp' hr => ?_
    rwa [probeColon, if_neg (fun h => h hp')]
  · refine extension_reject (v := left) (fun p' ht => ?_)
      (show (0 : UInt8) ∉ ascii ": 1 " by decide)
      fun _ tail htail => colon_one hlive hmin htail left
    rw [probeColon, if_pos (by rwa [ht])]

/-- What the loop does behind the question mark of a conditional. -/
def probeCond (minimum : ℕ) (left : Value) : Call F := fun p r =>
  ∃ q, probeExpression 1 p q ∧
    (q.1.error = .ok → probeColon minimum left q.1 r) ∧ (q.1.error ≠ .ok → r = (q.1, left))

theorem extension_cond (hlive : Live p) (hmin : 1 ≤ minimum) (ht : p.token ≠ .eot)
    (left : Value) : Extension (probeCond minimum left) (nextToken p) := by
  have hless := remaining_nextToken ht
  refine ((ih _ hlive.nextToken hless).expression le_rfl).bind
    (y := fun _ => probeColon minimum left) (Q := fun _ => True) hlive.nextToken trivial
    (fun _ => trivial) ?_ ?_ ?_ (show (0 : UInt8) ∉ ascii ": 1 " by decide) ?_
  · exact fun p' q r _ hq hok hr => ⟨q, hq, fun _ => hr, fun h => absurd hok h⟩
  · exact fun p' q _ hq hbad => ⟨left, q, hq, fun h => absurd h hbad, fun _ => rfl⟩
  · exact fun q _ hq hle =>
      extension_colon (fun q' hq' hlt => ih q' hq' (by omega)) hq hmin left
  · exact fun tail htail => ⟨by rw [Closes, scan_colon]; rfl,
      fun _ => colon_one hlive.nextToken hmin htail left⟩

omit ih in
/-- The loop at a question mark. -/
theorem climb_question (he : p.error = .ok) (hprec : minimum ≤ precedence p.token)
    (hquestion : p.token = .question) {r : Parser F × Value}
    (h : probeCond minimum left (nextToken p) r) : probeClimb minimum left p r := by
  have hread : ∀ (q : Parser F) v, readValue q v false = (q, 0) := readValue_of_not_execute
  obtain ⟨q, hq, hok, hbad⟩ := h
  by_cases herr : q.1.error = .ok
  · have hcolon := hok herr
    unfold probeColon at hcolon
    split at hcolon
    · next htoken =>
      subst hcolon
      have h := climb_question_stop he hprec hquestion (hread _ left) hq (hread _ _) (.inr htoken)
      rwa [if_neg (fun h => h herr)] at h
    · next htoken =>
      obtain ⟨q', hq', hr⟩ := hcolon
      exact climb_cond he hprec hquestion (hread _ left) hq (hread _ _) herr (not_not.mp htoken)
        hq' (hread _ _) hr
  · obtain rfl := hbad herr
    have h := climb_question_stop he hprec hquestion (hread _ left) hq (hread _ _) (.inl herr)
    rwa [if_pos herr] at h

theorem extension_climb (hlive : Live p) (hmin : 1 ≤ minimum) (left : Value) :
    Extension (probeClimb minimum left) p := by
  by_cases hprec : minimum ≤ precedence p.token
  swap
  · -- the loop ends here, and in front of a text that closes it
    have hdone : ∀ p' : Parser F, precedence p'.token = precedence p.token →
        probeClimb minimum left p' (p', left) := fun p' hp' =>
      climb_done fun h => hprec (hp' ▸ h.2)
    refine .continues hlive le_rfl id (fun _ => rfl) (hdone p rfl) fun tail htail => ?_
    by_cases ht : p.token = .eot
    · rw [extend_eot ht]
      exact climb_closes (htail ht) hmin left
    · exact hdone _ (by rw [extend_token ht])
  have ht : p.token ≠ .eot := fun h => by
    rw [h, show precedence .eot = 0 from rfl] at hprec
    omega
  have hext : ∀ tail, (p.extend tail).token = p.token ∧ (p.extend tail).error = .ok :=
    fun tail => ⟨extend_token ht tail, (extend_error p tail).trans hlive.1⟩
  have hread : ∀ (q : Parser F) v, readValue q v false = (q, 0) := readValue_of_not_execute
  by_cases hassign : precedence p.token = 2
  · cases hname : left.name with
    | none =>
      have htarget : ∀ p' : Parser F, p'.token = p.token → p'.error = .ok →
          probeClimb minimum left p' ({ nextToken p' with error := .syntaxError }, left) :=
        fun p' ht' he' => climb_target he' (ht' ▸ hprec) (ht' ▸ hassign) hname
      refine .fails ht (htarget p rfl hlive.1) (by simp) hlive.2 fun tail => ?_
      exact ⟨_, htarget _ (hext tail).1 (hext tail).2, by simp⟩
    | some x =>
      refine ((extension_operand ih hlive hmin ht (show 1 ≤ 2 by decide) {}).behind ht).imp
        (Q := fun p' => p'.token = p.token ∧ p'.error = .ok) ⟨rfl, hlive.1⟩ hext ?_
      rintro p' r ⟨ht', he'⟩ ⟨q, hq, hr⟩
      have hleft : (if p'.token ≠ .assign then readValue (nextToken p') left false
          else (nextToken p', 0)) = (nextToken p', 0) := by
        rw [hread]
        exact ite_self _
      refine climb_assign he' rfl (ht' ▸ hprec) (ht' ▸ hassign) hname hleft hq (hread _ _) ?_
      simpa [probeClimb] using hr
  by_cases hquestion : p.token = .question
  · refine ((extension_cond ih hlive hmin ht left).behind ht).imp
      (Q := fun p' => p'.token = p.token ∧ p'.error = .ok) ⟨rfl, hlive.1⟩ hext ?_
    exact fun p' r hp' hr => climb_question hp'.2 (hp'.1 ▸ hprec) (hp'.1.trans hquestion) hr
  · refine ((extension_operand ih hlive hmin ht (show 1 ≤ precedence p.token + 1 by omega)
      {}).behind ht).imp (Q := fun p' => p'.token = p.token ∧ p'.error = .ok) ⟨rfl, hlive.1⟩ hext ?_
    rintro p' r ⟨ht', he'⟩ ⟨q, hq, hr⟩
    refine climb_binary he' ht' hprec hassign hquestion (hread _ left) hq (hread _ _) ?_
    simpa [probeClimb] using hr

theorem extension_expression (hlive : Live p) (hmin : 1 ≤ minimum)
    (hclimb : ∀ (q : Parser F) v, Live q → remaining q ≤ remaining p → Extension (probeClimb minimum v) q) :
    Extension (probeExpression minimum) p := by
  refine (extension_primary ih hlive).bind (y := probeClimb minimum)
    (Q := fun p' => p'.error = .ok) (c := []) hlive hlive.1
    (fun tail => (extend_error p tail).trans hlive.1) ?_ ?_ hclimb (by simp) ?_
  · exact fun p' q r hp' hq _ hr => expression_returns hp' hq hr
  · exact fun p' q hp' hq hbad => ⟨q.2, expression_returns hp' hq (climb_of_error hbad q.2 _ _)⟩
  · exact fun tail htail => ⟨htail, fun v => ⟨v, climb_closes htail hmin v⟩⟩

end Induction

/-- **The calls of the probe go on with more text.** -/
theorem extension_all (n : ℕ) : ∀ p : Parser F, Live p → remaining p ≤ n → Extending p := by
  -- each call reads a token before the next one, or hands over what it has not read
  induction n using Nat.strong_induction_on with
  | _ n ih =>
    intro p hlive hn
    have hless : ∀ q : Parser F, Live q → remaining q < remaining p → Extending q :=
      fun q hq hlt => ih (remaining q) (by omega) q hq le_rfl
    have hclimb : ∀ (q : Parser F) (v : Value) {minimum : ℕ}, 1 ≤ minimum → Live q →
        remaining q ≤ remaining p → Extension (probeClimb minimum v) q :=
      fun q v _ hmin hq hle =>
        extension_climb (fun q' hq' hlt => hless q' hq' (by omega)) hq hmin v
    exact ⟨fun hmin => extension_expression hless hlive hmin fun q v => hclimb q v hmin,
      fun v hmin => hclimb p v hmin hlive le_rfl⟩

/-! ### The entry points -/

/-- What `run` leaves of the parser behind the expression. -/
def probeEnd (p : Parser F) : Parser F :=
  if p.error = .ok ∧ p.token ≠ .eot then { p with error := .syntaxError } else p

/-- The parser of the probe at the first token of a text. -/
def probeStart (text : Bytes) : Parser Unit := nextToken (probeParser text)

theorem probeStart_live (text : Bytes) : Live (probeStart text) := ⟨rfl, rfl⟩

/-- More text is found behind the first token, or makes it. -/
theorem probeStart_extend (text tail : Bytes) :
    probeStart (text ++ byteOf ' ' :: tail) = (probeStart text).extend tail := by
  -- the token in front of the text does not matter, unless it is the end
  let p : Parser Unit := { probeParser text with token := .bad }
  have hbad : p.token ≠ .eot := Token.noConfusion
  have h := nextToken_extend hbad tail
  rw [Parser.extend, if_neg hbad] at h
  exact h

theorem run_probe (ht : (probeStart text).token ≠ .eot)
    (h : probeExpression 1 (probeStart text) r) :
    run (enoughFuel text) (probeParser text) false = some (probeEnd r.1, 0) := by
  have hless : remaining (probeStart text) ≤ text.length :=
    remaining_start ({} : State Unit) text
  obtain ⟨q, hq⟩ := expression_enough (p := probeStart text) le_rfl false (n := enoughFuel text)
    (by unfold enoughFuel; omega)
  obtain rfl : q = r := h.eq_of_some (expression_mono _ _ _) hq
  rw [run_eq, show nextToken (probeParser text) = probeStart text from rfl, if_pos ht, hq]
  show finish false q.1 q.2 = some (probeEnd q.1, 0)
  unfold finish probeEnd
  simp only [readValue_of_not_execute, ite_self]

theorem run_probe_blank (ht : (probeStart text).token = .eot) :
    run (enoughFuel text) (probeParser text) false = some (probeStart text, 0) := by
  rw [run_eq, show nextToken (probeParser text) = probeStart text from rfl, if_neg (fun h => h ht)]
  have hok : (probeStart text).error = .ok := rfl
  show finish false (probeStart text) {} = some (probeStart text, 0)
  simp [finish, ht, hok, readValue_of_not_execute]

theorem arithProbe_of_run {p : Parser Unit} {n : ℤ}
    (h : run (enoughFuel text) (probeParser text) false = some (p, n)) :
    arithProbe text = p.error ∧ arithProbePrefix text = some (p.error = .ok || p.incomplete) := by
  unfold arithProbe arithProbePrefix
  simp only [show ({ next := text, state := {} } : Parser Unit) = probeParser text from rfl, h,
    and_self]

/-- The class of a text whose expression was read to a parser. -/
theorem arithProbe_of_expression
    (ht : (probeStart text).token ≠ .eot) (h : probeExpression 1 (probeStart text) r) :
    (arithProbe text = .ok ↔ r.1.error = .ok ∧ r.1.token = .eot) ∧
      arithProbePrefix text =
        some (decide (r.1.error = .ok ∧ r.1.token = .eot) || r.1.incomplete) := by
  obtain ⟨hprobe, hflag⟩ := arithProbe_of_run (run_probe ht h)
  rw [hprobe, hflag]
  unfold probeEnd
  by_cases herr : r.1.error = .ok <;> by_cases heot : r.1.token = .eot <;> simp [herr, heot]

/-- A text with more behind it. -/
theorem arithProbe_extend (ht : (probeStart text).token ≠ .eot)
    (h : probeExpression 1 ((probeStart text).extend tail) r) :
    arithProbe (text ++ byteOf ' ' :: tail) = .ok ↔ r.1.error = .ok ∧ r.1.token = .eot := by
  rw [← probeStart_extend] at h
  refine (arithProbe_of_expression ?_ h).1
  rw [probeStart_extend, extend_token ht]
  exact ht

/-- **The flag is set exactly for the texts that can be continued to an
expression.** -/
theorem arithProbePrefix_iff (text : Bytes) :
    arithProbePrefix text = some true ↔
      ∃ tail, (0 : UInt8) ∉ tail ∧ arithProbe (text ++ byteOf ' ' :: tail) = .ok := by
  by_cases ht : (probeStart text).token = .eot
  · have hflag := (arithProbe_of_run (run_probe_blank ht)).2
    have hblank : (probeStart (text ++ byteOf ' ' :: [])).token = .eot := by
      rw [probeStart_extend, extend_eot ht]
      rfl
    have hok := (arithProbe_of_run (run_probe_blank hblank)).1
    refine iff_of_true (hflag.trans ?_) ⟨[], by simp, hok⟩
    simp [show (probeStart text).error = .ok from rfl]
  have hlive := probeStart_live text
  cases (extension_all _ _ hlive le_rfl).expression le_rfl with
  | @continues q v live less ends same result extended =>
    rw [(arithProbe_of_expression ht result).2]
    by_cases heot : q.token = .eot
    · refine iff_of_true (by simp [heot, live.1]) ⟨[], by simp, ?_⟩
      rw [arithProbe_extend ht (extended [] fun _ => rfl), extend_eot heot]
      exact ⟨live.1, rfl⟩
    · refine iff_of_false (by simp [heot, live.2]) ?_
      rintro ⟨tail, -, hok⟩
      rw [arithProbe_extend ht (extended tail fun h => absurd h heot), extend_token heot] at hok
      exact heot hok.2
  | @fails q ahead result failed complete extended =>
    rw [(arithProbe_of_expression ht result).2]
    refine iff_of_false (by simp [failed, complete]) ?_
    rintro ⟨tail, -, hok⟩
    obtain ⟨r, hr, herr⟩ := extended tail
    exact herr ((arithProbe_extend ht hr).mp hok).1
  | @stops q result failed incomplete completion nul extended =>
    rw [(arithProbe_of_expression ht result).2]
    refine iff_of_true (by simp [incomplete]) ⟨completion ++ [], by simpa using nul, ?_⟩
    obtain ⟨v, hv⟩ := extended [] rfl
    rw [arithProbe_extend ht hv]
    exact ⟨hlive.1, rfl⟩

end Arithmetic
end CShell
