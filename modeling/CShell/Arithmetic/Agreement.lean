import CShell.Arithmetic.Correct

/-!
# The grammar probe against the evaluator

`csh_arith_probe` runs the recursion of `csh_arith_eval` with the `execute` flag
off.  The two runs are compared call by call: as long as the evaluator is live
both have read the same tokens and hold the same delayed name, so they take the
same syntactic path, untaken arms and parenthesised targets included.

## Main definitions

* `expressionReads`, `arithReads` — the variables a run reads, with their values.
* `Unreadable` — a value that `read_value` refuses.
* `Matches` — two runs of one call agree, or the evaluator has stopped for a
  reason of its own.

## Main results

* `matches_all` — **the two runs match, call by call.**
* `arithProbe_agrees` — **what the probe rejects never evaluates, and what it
  accepts fails to parse only at a variable.**
-/

namespace CShell
namespace Arithmetic

variable {F : Type}

/-! ### The variables a run reads -/

/-- A variable and the value it was read with. -/
abbrev Read := Bytes × Option Bytes

/-- The variable that `readValue` looks up. -/
def readOf (p : Parser F) (value : Value) (execute : Bool) : List Read :=
  if execute && p.error == .ok then
    value.name.toList.map fun name => (name, (p.state.getVariable name).2.value)
  else []

/-- What is read behind a call that returned. -/
def readsAfter (r : Option (Parser F × Value)) (f : Parser F → Value → List Read) : List Read :=
  match r with
  | none => []
  | some (p, value) => f p value

mutual

/-- The reads of `primary`. -/
def primaryReads : ℕ → Parser F → Bool → List Read
  | 0, _, _ => []
  | fuel + 1, p, execute =>
    match p.token with
    | .lparen => expressionReads fuel (nextToken p) 1 execute
    | token =>
      if unaryToken token then
        expressionReads fuel (nextToken p) 14 execute ++
          readsAfter (expression fuel (nextToken p) 14 execute) fun p value =>
            readOf p value execute
      else []

/-- The reads of `expression`. -/
def expressionReads : ℕ → Parser F → ℕ → Bool → List Read
  | 0, _, _, _ => []
  | fuel + 1, p, minimum, execute =>
    if p.error ≠ .ok then []
    else primaryReads fuel p execute ++
      readsAfter (primary fuel p execute) fun p left => climbReads fuel p left minimum execute

/-- The reads of the `while` loop of `expression`. -/
def climbReads : ℕ → Parser F → Value → ℕ → Bool → List Read
  | 0, _, _, _, _ => []
  | fuel + 1, p, left, minimum, execute =>
    if p.error = .ok ∧ minimum ≤ precedence p.token then
      let token := p.token
      let priority := precedence token
      let p := nextToken p
      if priority = 2 ∧ left.name = none then []
      else
        let (q, lhs) := if token ≠ .assign then readValue p left execute else (p, 0)
        (if token ≠ .assign then readOf p left execute else []) ++
        if token = .question then
          expressionReads fuel q 1 (execute && lhs != 0) ++
          readsAfter (expression fuel q 1 (execute && lhs != 0)) fun p selected =>
            readOf p selected (execute && lhs != 0) ++
            let (q, yes) := readValue p selected (execute && lhs != 0)
            if q.error ≠ .ok then []
            else if q.token ≠ .colon then []
            else
              expressionReads fuel (nextToken q) priority (execute && lhs == 0) ++
              readsAfter (expression fuel (nextToken q) priority (execute && lhs == 0))
                fun p selected =>
                  readOf p selected (execute && lhs == 0) ++
                  let (p, rhs) := readValue p selected (execute && lhs == 0)
                  climbReads fuel p { number := if lhs ≠ 0 then yes else rhs } minimum execute
        else
          let rightExecute := execute && !(token == .and && lhs == 0) && !(token == .or && lhs != 0)
          let inner := if priority = 2 then 2 else priority + 1
          expressionReads fuel q inner rightExecute ++
          readsAfter (expression fuel q inner rightExecute) fun p right =>
            readOf p right rightExecute ++
            let (p, rhs) := readValue p right rightExecute
            if execute = true ∧ p.error = .ok then
              if priority = 2 then
                let (p, number) := if token = .assign then (p, rhs)
                  else operation p (assignmentOperation token) lhs rhs
                let p := if p.error = .ok then assign p (left.name.getD []) number else p
                climbReads fuel p { number } minimum execute
              else
                let (p, number) := operation p token lhs rhs
                climbReads fuel p { number } minimum execute
            else climbReads fuel p {} minimum execute
    else []

end

/-- The reads of `run`, its last `readValue` included. -/
def runReads (fuel : ℕ) (p : Parser F) (execute : Bool) : List Read :=
  let p := nextToken p
  if p.token ≠ .eot then
    expressionReads fuel p 1 execute ++
      readsAfter (expression fuel p 1 execute) fun p result =>
        if p.token ≠ .eot then [] else readOf p result execute
  else []

/-- The variables that `csh_arith_eval` reads, in order. -/
def arithReads (state : State F) (text : Bytes) : List Read :=
  runReads (enoughFuel text) (startParser state text) true

/-- The digits of a text behind its sign. -/
def unsigned : Bytes → Bytes
  | [] => []
  | byte :: rest => if byte = byteOf '-' ∨ byte = byteOf '+' then rest else byte :: rest

/-- A value that is not an optionally signed constant, or none at all while
`nounset` is on. -/
def Unreadable (options : UInt32) (value : Option Bytes) : Prop :=
  match value with
  | none => hasBit options Opt.nounset = true
  | some text => text ≠ [] ∧ constant (unsigned text) = none

/-! ### Two runs side by side -/

/-- A live evaluator and a live probe at the same token. -/
structure Sync (options : UInt32) (p : Parser F) (q : Parser Unit) : Prop where
  live : p.error = .ok
  probe : q.error = .ok
  token : q.token = p.token
  lexeme : q.lexeme = p.lexeme
  next : q.next = p.next
  options : p.options = options
  named : p.token = .name → validName p.lexeme = true

/-- They moreover hold the same delayed name. -/
structure Agree (options : UInt32) (r : Parser F × Value) (r' : Parser Unit × Value) : Prop where
  sync : Sync options r.1 r'.1
  name : r'.2.name = r.2.name
  valid : ∀ x, r.2.name = some x → validName x = true

/-- The evaluator has stopped.  If it calls that a syntax error then the probe has
stopped too, or an unreadable value is among the reads. -/
def Stopped (options : UInt32) (reads : List Read) (error error' : ArithResult) : Prop :=
  error ≠ .ok ∧
    (error = .syntaxError → error' ≠ .ok ∨ ∃ r ∈ reads, Unreadable options r.2)

/-- Two runs of one call match. -/
def Matches (options : UInt32) (reads : List Read) (x : Option (Parser F × Value))
    (y : Option (Parser Unit × Value)) : Prop :=
  ∀ r r', x = some r → y = some r' →
    Agree options r r' ∨ Stopped options reads r.1.error r'.1.error

/-- A continuation that leaves a parser with an error alone. -/
def Keeps {α : Type} (f : Parser F → α → Option (Parser F × Value)) : Prop :=
  ∀ p a r, p.error ≠ .ok → f p a = some r → r.1.error = p.error

variable {e e' : ArithResult} {reads : List Read} {y : Option (Parser Unit × Value)} {token : Token}

theorem Stopped.mono {options : UInt32} {reads reads' : List Read}
    (h : Stopped options reads e e') (hsub : reads ⊆ reads') : Stopped options reads' e e' := by
  refine ⟨h.1, fun he => ?_⟩
  rcases h.2 he with hprobe | ⟨r, hr, hbad⟩
  · exact Or.inl hprobe
  · exact Or.inr ⟨r, hsub hr, hbad⟩

/-- A stopped evaluator stays stopped while the probe goes on. -/
theorem Stopped.carry {options : UInt32} {e e' d d' : ArithResult}
    (h : Stopped options reads e e') (hd : d = e) (hd' : e' ≠ .ok → d' ≠ .ok) :
    Stopped options reads d d' := by
  subst hd
  refine ⟨h.1, fun he => ?_⟩
  rcases h.2 he with hprobe | hbad
  · exact Or.inl (hd' hprobe)
  · exact Or.inr hbad

theorem stopped_both {options : UInt32} (he : e ≠ .ok)
    (he' : e' ≠ .ok) : Stopped options reads e e' :=
  ⟨he, fun _ => Or.inl he'⟩

theorem Matches.mono {options : UInt32} {reads reads' : List Read}
    {x : Option (Parser F × Value)}
    (h : Matches options reads x y) (hsub : reads ⊆ reads') : Matches options reads' x y := by
  intro r r' hr hr'
  rcases h r r' hr hr' with hag | hst
  · exact Or.inl hag
  · exact Or.inr (hst.mono hsub)

theorem matches_none {options : UInt32} :
    Matches options reads (none : Option (Parser F × Value)) y := by
  intro r r' hr
  cases hr

theorem matches_some {options : UInt32} {r : Parser F × Value}
    {r' : Parser Unit × Value} (h : Agree options r r') :
    Matches options reads (some r) (some r') := by
  intro x x' hx hx'
  cases hx
  cases hx'
  exact Or.inl h

theorem matches_stopped {options : UInt32} {r : Parser F × Value}
    {r' : Parser Unit × Value} (he : r.1.error ≠ .ok) (he' : r'.1.error ≠ .ok) :
    Matches options reads (some r) (some r') := by
  intro x x' hx hx'
  cases hx
  cases hx'
  exact Or.inr (stopped_both he he')

/-- Once the evaluator has stopped, whatever is left of the two calls matches. -/
theorem matches_of_stopped {α β : Type} {options : UInt32} {p : Parser F}
    {q : Parser Unit} {f : Parser F → α → Option (Parser F × Value)}
    {g : Parser Unit → β → Option (Parser Unit × Value)} {a : α} {b : β}
    (h : Stopped options reads p.error q.error) (hf : Keeps f) (hg : Keeps g) :
    Matches options reads (f p a) (g q b) := by
  intro r r' hr hr'
  refine Or.inr (h.carry (hf p a r h.1 hr) fun hq => ?_)
  rw [hg q b r' hq hr']
  exact hq

/-- **One call after another.** -/
theorem Matches.bind {options : UInt32} {x : Option (Parser F × Value)}
    {f : Parser F → Value → Option (Parser F × Value)}
    {g : Parser Unit → Value → Option (Parser Unit × Value)} {h : Parser F → Value → List Read}
    (hxy : Matches options reads x y) (hf : Keeps f) (hg : Keeps g)
    (hnext : ∀ p v q w, Agree options (p, v) (q, w) → Matches options (h p v) (f p v) (g q w)) :
    Matches options (reads ++ readsAfter x h) (x.bind fun r => f r.1 r.2)
      (y.bind fun r => g r.1 r.2) := by
  cases x with
  | none => exact matches_none
  | some r =>
    cases y with
    | none => intro r r' _ hr'; cases hr'
    | some r' =>
      obtain ⟨p, v⟩ := r
      obtain ⟨q, w⟩ := r'
      rcases hxy _ _ rfl rfl with hag | hst
      · exact (hnext p v q w hag).mono (List.subset_append_right ..)
      · exact (matches_of_stopped hst hf hg).mono (List.subset_append_left ..)

/-! ### The helpers of the recursion -/

theorem scan_name {text : Bytes} (h : (scan text).token = .name) :
    validName (scan text).lexeme = true := by
  unfold scan at h ⊢
  generalize text.dropWhile space = text at h ⊢
  cases text with
  | nil => cases h
  | cons byte rest =>
    simp only [scanWord] at h ⊢
    split at h
    · next hname =>
      rw [if_pos hname]
      cases hdig : digit byte with
      | true => simp [hdig] at h
      | false =>
        have hstart : nameStart byte = true := by simpa [nameByte, hdig] using hname
        simp only [validName, hstart, Bool.true_and, List.all_eq_true]
        intro b hb
        exact List.mem_takeWhile_imp hb
    · split at h
      · next op hop =>
        have hmem := List.mem_of_find?_eq_some hop
        have hkind : ∀ op ∈ operators, op.2 ≠ .name := by decide
        exact absurd h (hkind op hmem)
      · cases h

theorem Sync.nextToken {options : UInt32} {p : Parser F} {q : Parser Unit}
    (h : Sync options p q) : Sync options (nextToken p) (nextToken q) := by
  have hscan : scan q.next = scan p.next := by rw [h.next]
  exact ⟨h.live, h.probe, congrArg Scan.token hscan, congrArg Scan.lexeme hscan,
    congrArg Scan.next hscan, h.options, fun hname => scan_name hname⟩

theorem unsigned_signedConstant {text : Bytes} (h : textValue text = .error .syntaxError) :
    text ≠ [] ∧ constant (unsigned text) = none := by
  have hsigned : ∀ {negative : Bool} {digits : Bytes},
      signedConstant negative digits = .error .syntaxError → constant digits = none := by
    intro negative digits hd
    unfold signedConstant at hd
    cases hc : constant digits with
    | none => rfl
    | some n =>
      rw [hc] at hd
      have hfit : ∀ k : ℤ, fit k ≠ .error .syntaxError := by
        intro k hk
        unfold fit at hk
        split at hk <;> cases hk
      exact absurd hd (hfit _)
  cases text with
  | nil => cases h
  | cons byte rest =>
    refine ⟨by simp, ?_⟩
    simp only [textValue] at h
    simp only [unsigned]
    split at h
    · next hminus => rw [if_pos (Or.inl hminus)]; exact hsigned h
    · next hminus =>
      split at h
      · next hplus => rw [if_pos (Or.inr hplus)]; exact hsigned h
      · next hplus => rw [if_neg (by simp [hminus, hplus])]; exact hsigned h

/-- `readValue` returns a number, or fails; it fails to parse only at an unreadable
value. -/
theorem readValue_cases {p : Parser F} (hp : p.error = .ok) (v : Value) (execute : Bool) :
    (∃ n, readValue p v execute = (p, n)) ∨
    ∃ c, c ≠ .ok ∧ readValue p v execute = ({ p with error := c }, 0) ∧
      (c = .syntaxError → ∃ r ∈ readOf p v execute, Unreadable p.options r.2) := by
  cases execute with
  | false => exact Or.inl ⟨0, readValue_of_not_execute p v⟩
  | true =>
    unfold readValue readOf
    simp only [hp, Bool.not_true, bne_self_eq_false, Bool.or_self, Bool.false_eq_true, if_false,
      Bool.true_and, beq_self_eq_true, if_true]
    cases hname : v.name with
    | none =>
      by_cases hhigh : v.high = 0
      · exact Or.inl ⟨v.number, by simp [hhigh]⟩
      · exact Or.inr ⟨.range, by decide, by simp [hhigh], fun h => by cases h⟩
    | some x =>
      simp only [Option.toList_some, List.map_cons, List.map_nil, List.mem_singleton,
        exists_eq_left]
      cases hval : (p.state.getVariable x).2.value with
      | none =>
        by_cases hset : hasBit p.options Opt.nounset = true
        · exact Or.inr ⟨.syntaxError, by decide, by simp [hset], fun _ => hset⟩
        · exact Or.inl ⟨0, by simp [hset]⟩
      | some text =>
        cases text with
        | nil => exact Or.inl ⟨0, rfl⟩
        | cons byte rest =>
          simp only [readText_eq]
          cases hread : textValue (byte :: rest) with
          | ok n => exact Or.inl ⟨n, rfl⟩
          | error c =>
            have hc : c ≠ .ok := read_error (s := p.state) (o := .var x) (by simp [read, hval, hread])
            refine Or.inr ⟨c, hc, rfl, fun hc => ?_⟩
            subst hc
            exact unsigned_signedConstant hread

/-- Reading the delayed value, and going on with the number. -/
theorem matches_read {options : UInt32} {p : Parser F} {q : Parser Unit}
    {f : Parser F → ℤ → Option (Parser F × Value)}
    {g : Parser Unit → ℤ → Option (Parser Unit × Value)} (h : Sync options p q) (v : Value)
    (execute : Bool) (hf : Keeps f) (hg : Keeps g)
    (hnext : ∀ n, readValue p v execute = (p, n) → Matches options reads (f p n) (g q 0)) :
    Matches options (readOf p v execute ++ reads)
      (f (readValue p v execute).1 (readValue p v execute).2) (g q 0) := by
  rcases readValue_cases h.live v execute with ⟨n, hn⟩ | ⟨c, hc, hread, hbad⟩
  · have hrest := hnext n hn
    rw [hn]
    exact hrest.mono (List.subset_append_right ..)
  · rw [hread]
    have hstop : Stopped options (readOf p v execute) c q.error :=
      ⟨hc, fun he => Or.inr (h.options ▸ hbad he)⟩
    exact (matches_of_stopped (p := { p with error := c }) hstop hf hg).mono
      (List.subset_append_left ..)

/-- The binary operators compute something or leave the range. -/
theorem operation_cases (p : Parser F)
    (ht : precedence token = 1 ∨ 4 ≤ precedence token) (l r : ℤ) :
    (∃ n, operation p token l r = (p, n)) ∨ operation p token l r = ({ p with error := .range }, 0) := by
  unfold operation
  have hsome : ∃ m, compute token l r = some m := by
    cases token <;> first | exact ⟨_, rfl⟩ | (simp [precedence] at ht)
  obtain ⟨m, hm⟩ := hsome
  rw [hm]
  cases m with
  | none => exact Or.inr rfl
  | some n => exact Or.inl ⟨n, rfl⟩

theorem assignmentOperation_binary (ht : precedence token = 2)
    (hne : token ≠ .assign) : 4 ≤ precedence (assignmentOperation token) := by
  cases token <;> first | exact absurd rfl hne | (simp [precedence, assignmentOperation] at ht ⊢)

/-- An assignment to a valid name goes through, or fails for a reason of the state. -/
theorem assign_cases (p : Parser F) {x : Bytes} (hx : validName x = true) (n : ℤ) :
    (∃ s, assign p x n = { p with state := s }) ∨
    ∃ s c, c ≠ .ok ∧ c ≠ .syntaxError ∧ assign p x n = { p with state := s, error := c } := by
  have hset : (p.state.setVariable x (decimal n)).1 ≠ .invalid := by
    unfold State.setVariable
    simp only [hx, Bool.not_true, Bool.false_eq_true, if_false]
    split
    · split <;> simp
    · simp
  have hupdate : ∀ s : State F, (s.updateAttributes x Attr.exported 0).1 ≠ .invalid := by
    intro s
    have hmask : ((Attr.exported ||| 0) &&& ~~~Attr.all != 0 || Attr.exported &&& 0 != 0) = false := by
      decide
    unfold State.updateAttributes
    simp only [hx, Bool.not_true, Bool.false_or, hmask, Bool.false_eq_true, if_false]
    split
    · split <;> simp
    · split <;> simp
  have hstore : (store p.state p.options x n).1 ≠ .invalid := by
    unfold store
    split
    · split
      · exact hupdate _
      · simp
    · exact hset
  unfold assign
  split
  · exact Or.inl ⟨_, rfl⟩
  · exact Or.inr ⟨_, .nomem, by decide, by decide, rfl⟩
  · exact Or.inr ⟨_, .readonly, by decide, by decide, rfl⟩
  · next hinv => exact absurd (congrArg Prod.fst hinv) hstore

/-! ### The loop in pieces

The branches of `climb` behind the left operand, as functions of the parser and
the number that was read. -/

/-- Behind the third operand of a conditional. -/
def climbLast (fuel minimum : ℕ) (execute : Bool) (lhs yes : ℤ) (p : Parser F) (rhs : ℤ) :
    Option (Parser F × Value) :=
  climb fuel p { number := if lhs ≠ 0 then yes else rhs } minimum execute

/-- Behind the second operand of a conditional. -/
def climbColon (fuel priority : ℕ) (left : Value) (minimum : ℕ) (execute : Bool) (lhs : ℤ)
    (p : Parser F) (yes : ℤ) : Option (Parser F × Value) :=
  if p.error ≠ .ok then some (p, left)
  else if p.token ≠ .colon then some (reject p, left)
  else (expression fuel (nextToken p) priority (execute && lhs == 0)).bind fun r =>
    climbLast fuel minimum execute lhs yes (readValue r.1 r.2 (execute && lhs == 0)).1
      (readValue r.1 r.2 (execute && lhs == 0)).2

/-- Behind the first operand of a conditional. -/
def climbCond (fuel priority : ℕ) (left : Value) (minimum : ℕ) (execute : Bool) (p : Parser F)
    (lhs : ℤ) : Option (Parser F × Value) :=
  (expression fuel p 1 (execute && lhs != 0)).bind fun r =>
    climbColon fuel priority left minimum execute lhs (readValue r.1 r.2 (execute && lhs != 0)).1
      (readValue r.1 r.2 (execute && lhs != 0)).2

/-- What an operator makes of its two operands. -/
def climbApply (fuel : ℕ) (token : Token) (left : Value) (minimum : ℕ) (execute : Bool) (lhs : ℤ)
    (p : Parser F) (rhs : ℤ) : Option (Parser F × Value) :=
  if execute = true ∧ p.error = .ok then
    if precedence token = 2 then
      let (p, number) := if token = .assign then (p, rhs)
        else operation p (assignmentOperation token) lhs rhs
      let p := if p.error = .ok then assign p (left.name.getD []) number else p
      climb fuel p { number } minimum execute
    else
      let (p, number) := operation p token lhs rhs
      climb fuel p { number } minimum execute
  else climb fuel p {} minimum execute

/-- The flag under which the right operand of an operator runs. -/
def rightFlag (token : Token) (execute : Bool) (lhs : ℤ) : Bool :=
  execute && !(token == .and && lhs == 0) && !(token == .or && lhs != 0)

/-- Behind the left operand of an operator. -/
def climbBinary (fuel : ℕ) (token : Token) (left : Value) (minimum : ℕ) (execute : Bool)
    (p : Parser F) (lhs : ℤ) : Option (Parser F × Value) :=
  (expression fuel p (if precedence token = 2 then 2 else precedence token + 1)
    (rightFlag token execute lhs)).bind fun r =>
      climbApply fuel token left minimum execute lhs
        (readValue r.1 r.2 (rightFlag token execute lhs)).1
        (readValue r.1 r.2 (rightFlag token execute lhs)).2

/-- Behind the left operand. -/
def climbRest (fuel : ℕ) (token : Token) (left : Value) (minimum : ℕ) (execute : Bool)
    (p : Parser F) (lhs : ℤ) : Option (Parser F × Value) :=
  if token = .question then climbCond fuel (precedence token) left minimum execute p lhs
  else climbBinary fuel token left minimum execute p lhs

/-- The parser behind an operator, and its left operand where that is read. -/
def leftOperand (p : Parser F) (left : Value) (execute : Bool) : Parser F × ℤ :=
  if p.token ≠ .assign then readValue (nextToken p) left execute else (nextToken p, 0)

theorem climb_succ (fuel : ℕ) (p : Parser F) (left : Value) (minimum : ℕ) (execute : Bool) :
    climb (fuel + 1) p left minimum execute =
      if p.error = .ok ∧ minimum ≤ precedence p.token then
        if precedence p.token = 2 ∧ left.name = none then
          some ({ nextToken p with error := .syntaxError }, left)
        else climbRest fuel p.token left minimum execute (leftOperand p left execute).1
          (leftOperand p left execute).2
      else some (p, left) := by
  rw [climb]
  rfl

/-! ### Errors stick -/

theorem keeps_expression {α : Type} (fuel minimum : ℕ) (execute : α → Bool) :
    Keeps fun (p : Parser F) (a : α) => expression fuel p minimum (execute a) := by
  intro p a r hp hr
  cases fuel with
  | zero => cases hr
  | succ fuel =>
    dsimp only at hr
    rw [expression, if_pos hp] at hr
    cases hr
    rfl

theorem keeps_climb {α : Type} (fuel : ℕ) (left : α → Value) (minimum : ℕ) (execute : Bool) :
    Keeps fun (p : Parser F) (a : α) => climb fuel p (left a) minimum execute := by
  intro p a r hp hr
  cases fuel with
  | zero => cases hr
  | succ fuel =>
    dsimp only at hr
    rw [climb_succ, if_neg (fun h => hp h.1)] at hr
    cases hr
    rfl

theorem Keeps.read {f : Parser F → ℤ → Option (Parser F × Value)} (hf : Keeps f)
    (execute : Bool) :
    Keeps fun p v => f (readValue p v execute).1 (readValue p v execute).2 := by
  intro p v r hp hr
  dsimp only at hr
  rw [readValue_of_error hp] at hr
  exact hf p 0 r hp hr

theorem Keeps.bind {α : Type} {x : Parser F → α → Option (Parser F × Value)}
    {f : α → Parser F → Value → Option (Parser F × Value)} (hx : Keeps x) (hf : ∀ a, Keeps (f a)) :
    Keeps fun p a => (x p a).bind fun r => f a r.1 r.2 := by
  intro p a r hp hr
  obtain ⟨r₁, h₁, h₂⟩ := Option.bind_eq_some_iff.mp hr
  have herr := hx p a r₁ hp h₁
  rw [← herr]
  exact hf a r₁.1 r₁.2 r (by rw [herr]; exact hp) h₂

theorem keeps_climbLast (fuel minimum : ℕ) (execute : Bool) (lhs yes : ℤ) :
    Keeps (climbLast (F := F) fuel minimum execute lhs yes) :=
  keeps_climb fuel (fun rhs => { number := if lhs ≠ 0 then yes else rhs }) minimum execute

theorem keeps_climbColon (fuel priority : ℕ) (left : Value) (minimum : ℕ) (execute : Bool)
    (lhs : ℤ) : Keeps (climbColon (F := F) fuel priority left minimum execute lhs) := by
  intro p yes r hp hr
  rw [climbColon, if_pos hp] at hr
  cases hr
  rfl

theorem keeps_climbApply (fuel : ℕ) (token : Token) (left : Value) (minimum : ℕ) (execute : Bool)
    (lhs : ℤ) : Keeps (climbApply (F := F) fuel token left minimum execute lhs) := by
  intro p rhs r hp hr
  rw [climbApply, if_neg (fun h => hp h.2)] at hr
  exact keeps_climb fuel (fun _ : Unit => {}) minimum execute p () r hp hr

theorem keeps_climbRest (fuel : ℕ) (token : Token) (left : Value) (minimum : ℕ) (execute : Bool) :
    Keeps (climbRest (F := F) fuel token left minimum execute) := by
  unfold climbRest
  split
  · exact (keeps_expression fuel 1 _).bind fun lhs =>
      (keeps_climbColon fuel _ left minimum execute lhs).read _
  · exact (keeps_expression fuel _ _).bind fun lhs =>
      (keeps_climbApply fuel token left minimum execute lhs).read _

/-! ### The reads of the pieces -/

/-- The reads of `climbColon`. -/
def colonReads (fuel priority minimum : ℕ) (execute : Bool) (lhs : ℤ) (p : Parser F) (yes : ℤ) :
    List Read :=
  if p.error ≠ .ok then []
  else if p.token ≠ .colon then []
  else expressionReads fuel (nextToken p) priority (execute && lhs == 0) ++
    readsAfter (expression fuel (nextToken p) priority (execute && lhs == 0)) fun p v =>
      readOf p v (execute && lhs == 0) ++
        climbReads fuel (readValue p v (execute && lhs == 0)).1
          { number := if lhs ≠ 0 then yes else (readValue p v (execute && lhs == 0)).2 } minimum execute

/-- The reads of `climbApply`. -/
def applyReads (fuel : ℕ) (token : Token) (left : Value) (minimum : ℕ) (execute : Bool) (lhs : ℤ)
    (p : Parser F) (rhs : ℤ) : List Read :=
  if execute = true ∧ p.error = .ok then
    if precedence token = 2 then
      let (p, number) := if token = .assign then (p, rhs)
        else operation p (assignmentOperation token) lhs rhs
      let p := if p.error = .ok then assign p (left.name.getD []) number else p
      climbReads fuel p { number } minimum execute
    else
      let (p, number) := operation p token lhs rhs
      climbReads fuel p { number } minimum execute
  else climbReads fuel p {} minimum execute

/-- The reads of `climbRest`. -/
def restReads (fuel : ℕ) (token : Token) (left : Value) (minimum : ℕ) (execute : Bool)
    (p : Parser F) (lhs : ℤ) : List Read :=
  if token = .question then
    expressionReads fuel p 1 (execute && lhs != 0) ++
      readsAfter (expression fuel p 1 (execute && lhs != 0)) fun p v =>
        readOf p v (execute && lhs != 0) ++
          colonReads fuel (precedence token) minimum execute lhs
            (readValue p v (execute && lhs != 0)).1 (readValue p v (execute && lhs != 0)).2
  else
    expressionReads fuel p (if precedence token = 2 then 2 else precedence token + 1)
        (rightFlag token execute lhs) ++
      readsAfter (expression fuel p (if precedence token = 2 then 2 else precedence token + 1)
          (rightFlag token execute lhs)) fun p v =>
        readOf p v (rightFlag token execute lhs) ++
          applyReads fuel token left minimum execute lhs
            (readValue p v (rightFlag token execute lhs)).1
            (readValue p v (rightFlag token execute lhs)).2

theorem climbReads_succ (fuel : ℕ) (p : Parser F) (left : Value) (minimum : ℕ) (execute : Bool) :
    climbReads (fuel + 1) p left minimum execute =
      if p.error = .ok ∧ minimum ≤ precedence p.token then
        if precedence p.token = 2 ∧ left.name = none then []
        else (if p.token ≠ .assign then readOf (nextToken p) left execute else []) ++
          restReads fuel p.token left minimum execute (leftOperand p left execute).1
            (leftOperand p left execute).2
      else [] := by
  rw [climbReads]
  rfl

/-! ### The induction -/

/-- The two runs match on a given fuel. -/
structure Matching (F : Type) (options : UInt32) (fuel : ℕ) : Prop where
  primary : ∀ (p : Parser F) q execute, Sync options p q →
    Matches options (primaryReads fuel p execute) (primary fuel p execute) (primary fuel q false)
  expression : ∀ (p : Parser F) q minimum execute, 1 ≤ minimum → Sync options p q →
    Matches options (expressionReads fuel p minimum execute) (expression fuel p minimum execute)
      (expression fuel q minimum false)
  climb : ∀ (p : Parser F) v q w minimum execute, 1 ≤ minimum → Agree options (p, v) (q, w) →
    Matches options (climbReads fuel p v minimum execute) (climb fuel p v minimum execute)
      (climb fuel q w minimum false)

section Induction

variable {options : UInt32} {fuel : ℕ} {p : Parser F} {q : Parser Unit}

/-- With both values known there is no delayed name. -/
theorem Sync.agree (h : Sync options p q) (n m : ℤ) :
    Agree options (p, { number := n }) (q, { number := m }) :=
  ⟨h, rfl, fun _ hx => by cases hx⟩

variable {minimum : ℕ}

theorem matches_climbColon (ih : Matching F options fuel) (h : Sync options p q) {priority : ℕ}
    (hpriority : 1 ≤ priority) (left left' : Value) (hone : 1 ≤ minimum)
    (execute : Bool) (lhs yes : ℤ) :
    Matches options (colonReads fuel priority minimum execute lhs p yes)
      (climbColon fuel priority left minimum execute lhs p yes)
      (climbColon fuel priority left' minimum false 0 q 0) := by
  have hp : ¬ p.error ≠ .ok := fun hne => hne h.live
  have hq : ¬ q.error ≠ .ok := fun hne => hne h.probe
  unfold colonReads climbColon
  rw [if_neg hp, if_neg hp, if_neg hq, h.token]
  by_cases hcolon : p.token ≠ .colon
  · rw [if_pos hcolon, if_pos hcolon, if_pos hcolon]
    exact matches_stopped (by simp [reject]) (by simp [reject])
  · rw [if_neg hcolon, if_neg hcolon, if_neg hcolon]
    refine (ih.expression _ _ priority _ hpriority h.nextToken).bind
      ((keeps_climbLast fuel minimum execute lhs yes).read _)
      ((keeps_climbLast fuel minimum false 0 0).read false) ?_
    intro p' v q' w hag
    rw [readValue_of_not_execute]
    refine matches_read hag.sync v _ (keeps_climbLast fuel minimum execute lhs yes)
      (keeps_climbLast fuel minimum false 0 0) fun n hn => ?_
    rw [hn]
    exact ih.climb _ _ _ _ _ _ hone (hag.sync.agree _ _)

/-- An error of the range or of the state has nothing to do with the grammar. -/
theorem matches_climb_error (hc : p.error ≠ .ok) (hc' : p.error ≠ .syntaxError) (v w : Value)
    (minimum : ℕ) (execute : Bool) (reads : List Read) :
    Matches options reads (climb fuel p v minimum execute) (climb fuel q w minimum false) :=
  matches_of_stopped (f := fun p v => climb fuel p v minimum execute)
    (g := fun q w => climb fuel q w minimum false) ⟨hc, fun he => absurd he hc'⟩
    (keeps_climb fuel id minimum execute) (keeps_climb fuel id minimum false)

theorem Sync.withState (h : Sync options p q) (s : State F) : Sync options { p with state := s } q :=
  ⟨h.live, h.probe, h.token, h.lexeme, h.next, h.options, h.named⟩

theorem matches_climbApply (ih : Matching F options fuel) (h : Sync options p q)
    (htoken : 1 ≤ precedence token) (hcond : token ≠ .question) {left : Value} (left' : Value)
    (hname : precedence token = 2 → ∃ x, left.name = some x ∧ validName x = true)
    (hone : 1 ≤ minimum) (execute : Bool) (lhs rhs : ℤ) :
    Matches options (applyReads fuel token left minimum execute lhs p rhs)
      (climbApply fuel token left minimum execute lhs p rhs)
      (climbApply fuel token left' minimum false 0 q 0) := by
  unfold applyReads climbApply
  rw [if_neg (by simp : ¬ (false = true ∧ q.error = .ok))]
  by_cases hlive : execute = true ∧ p.error = .ok
  · rw [if_pos hlive, if_pos hlive]
    by_cases h2 : precedence token = 2
    · rw [if_pos h2, if_pos h2]
      obtain ⟨x, hx, hvalid⟩ := hname h2
      have hop : (∃ n, (if token = .assign then (p, rhs)
            else operation p (assignmentOperation token) lhs rhs) = (p, n)) ∨
          (if token = .assign then (p, rhs) else operation p (assignmentOperation token) lhs rhs)
            = ({ p with error := .range }, 0) := by
        by_cases hassign : token = .assign
        · exact Or.inl ⟨rhs, if_pos hassign⟩
        · rw [if_neg hassign]
          exact operation_cases p (Or.inr (assignmentOperation_binary h2 hassign)) lhs rhs
      rcases hop with ⟨n, hn⟩ | hrange
      · simp only [hn, h.live, if_true, hx, Option.getD_some]
        rcases assign_cases p hvalid n with ⟨s, hs⟩ | ⟨s, c, hc, hc', hs⟩
        · rw [hs]
          exact ih.climb _ _ _ _ _ _ hone ((h.withState s).agree _ _)
        · rw [hs]
          exact matches_climb_error hc hc' _ _ _ _ _
      · simp only [hrange, reduceCtorEq, if_false]
        exact matches_climb_error (by simp) (by simp) _ _ _ _ _
    · rw [if_neg h2, if_neg h2]
      have hbinary : precedence token = 1 ∨ 4 ≤ precedence token := by
        have h3 : precedence token ≠ 3 := by
          intro h3
          cases token <;> first | exact absurd rfl hcond | (cases h3)
        omega
      rcases operation_cases p hbinary lhs rhs with ⟨n, hn⟩ | hrange
      · simp only [hn]
        exact ih.climb _ _ _ _ _ _ hone (h.agree _ _)
      · simp only [hrange]
        exact matches_climb_error (by simp) (by simp) _ _ _ _ _
  · rw [if_neg hlive, if_neg hlive]
    exact ih.climb _ _ _ _ _ _ hone (h.agree _ _)

theorem matches_climbRest (ih : Matching F options fuel) (h : Sync options p q)
    (htoken : 1 ≤ precedence token) {left : Value} (left' : Value)
    (hname : precedence token = 2 → ∃ x, left.name = some x ∧ validName x = true)
    (hone : 1 ≤ minimum) (execute : Bool) (lhs : ℤ) :
    Matches options (restReads fuel token left minimum execute p lhs)
      (climbRest fuel token left minimum execute p lhs)
      (climbRest fuel token left' minimum false q 0) := by
  unfold restReads climbRest
  by_cases hcond : token = .question
  · rw [if_pos hcond, if_pos hcond, if_pos hcond]
    refine (ih.expression _ _ 1 _ le_rfl h).bind ((keeps_climbColon fuel _ left minimum execute lhs).read _)
      ((keeps_climbColon fuel _ left' minimum false 0).read false) ?_
    intro p' v q' w hag
    rw [readValue_of_not_execute]
    refine matches_read hag.sync v _ (keeps_climbColon fuel _ left minimum execute lhs)
      (keeps_climbColon fuel _ left' minimum false 0) fun n hn => ?_
    rw [hn]
    exact matches_climbColon ih hag.sync htoken left left' hone execute lhs n
  · rw [if_neg hcond, if_neg hcond, if_neg hcond]
    have hinner : 1 ≤ if precedence token = 2 then 2 else precedence token + 1 := by
      split <;> omega
    refine (ih.expression _ _ _ _ hinner h).bind ((keeps_climbApply fuel token left minimum execute lhs).read _)
      ((keeps_climbApply fuel token left' minimum false 0).read false) ?_
    intro p' v q' w hag
    rw [readValue_of_not_execute]
    refine matches_read hag.sync v _ (keeps_climbApply fuel token left minimum execute lhs)
      (keeps_climbApply fuel token left' minimum false 0) fun n hn => ?_
    rw [hn]
    exact matches_climbApply ih hag.sync htoken hcond left' hname hone execute lhs n

theorem leftOperand_false (q : Parser F) (w : Value) : leftOperand q w false = (nextToken q, 0) := by
  simp [leftOperand, readValue_of_not_execute]

theorem matches_climb (ih : Matching F options fuel) {v w : Value}
    (h : Agree options (p, v) (q, w)) (hone : 1 ≤ minimum) (execute : Bool) :
    Matches options (climbReads (fuel + 1) p v minimum execute)
      (climb (fuel + 1) p v minimum execute) (climb (fuel + 1) q w minimum false) := by
  have hsync : Sync options p q := h.sync
  have hname : w.name = v.name := h.name
  rw [climbReads_succ, climb_succ, climb_succ, hsync.token, hname]
  by_cases hmin : minimum ≤ precedence p.token
  · have hp : p.error = .ok ∧ minimum ≤ precedence p.token := ⟨hsync.live, hmin⟩
    have hq : q.error = .ok ∧ minimum ≤ precedence p.token := ⟨hsync.probe, hmin⟩
    rw [if_pos hp, if_pos hp, if_pos hq]
    by_cases htarget : precedence p.token = 2 ∧ v.name = none
    · rw [if_pos htarget, if_pos htarget, if_pos htarget]
      exact matches_stopped (by simp) (by simp)
    · rw [if_neg htarget, if_neg htarget, if_neg htarget, leftOperand_false]
      have hvalid : precedence p.token = 2 → ∃ x, v.name = some x ∧ validName x = true := by
        intro h2
        obtain ⟨x, hx⟩ := Option.ne_none_iff_exists'.mp fun hnone => htarget ⟨h2, hnone⟩
        exact ⟨x, hx, h.valid x hx⟩
      have hrest := matches_climbRest ih hsync.nextToken (le_trans hone hmin) w hvalid hone execute
      unfold leftOperand
      by_cases hassign : p.token ≠ .assign
      · rw [if_pos hassign, if_pos hassign]
        apply matches_read hsync.nextToken v execute (keeps_climbRest fuel p.token v minimum execute)
          (keeps_climbRest fuel p.token w minimum false)
        intro n hn
        rw [hn]
        exact hrest n
      · rw [if_neg hassign, if_neg hassign]
        exact hrest 0
  · have hp : ¬ (p.error = .ok ∧ minimum ≤ precedence p.token) := fun hm => hmin hm.2
    have hq : ¬ (q.error = .ok ∧ minimum ≤ precedence p.token) := fun hm => hmin hm.2
    rw [if_neg hp, if_neg hp, if_neg hq]
    exact matches_some h

theorem matches_expression (ih : Matching F options fuel) (h : Sync options p q)
    (hone : 1 ≤ minimum) (execute : Bool) :
    Matches options (expressionReads (fuel + 1) p minimum execute)
      (expression (fuel + 1) p minimum execute) (expression (fuel + 1) q minimum false) := by
  have hp : ¬ p.error ≠ .ok := fun hne => hne h.live
  have hq : ¬ q.error ≠ .ok := fun hne => hne h.probe
  rw [expressionReads, expression, expression, if_neg hp, if_neg hp, if_neg hq]
  refine (ih.primary p q execute h).bind (keeps_climb fuel id minimum execute)
    (keeps_climb fuel id minimum false) ?_
  intro p' v q' w hag
  exact ih.climb _ _ _ _ _ _ hone hag

/-- The operand of a unary operator is read before the operator is applied. -/
theorem applyUnary_match {v w : Value} (h : Agree options (p, v) (q, w)) (token : Token)
    (execute : Bool) :
    Matches options (readOf p v execute) (some (applyUnary p token v execute))
      (some (applyUnary q token w false)) := by
  have hsync : Sync options p q := h.sync
  have hprobe : applyUnary q token w false = (q, { w with name := none, high := 0 }) := by
    simp [applyUnary]
  rw [hprobe]
  -- a value without a name agrees with the probe's
  have hplain : ∀ {v' : Value}, v'.name = none →
      Matches options (readOf p v execute) (some (p, v')) (some (q, { w with name := none, high := 0 })) := by
    intro v' hv'
    refine matches_some ⟨hsync, hv'.symm, fun x hx => ?_⟩
    rw [hv'] at hx
    cases hx
  cases execute with
  | false =>
    have happly : applyUnary p token v false = (p, { v with name := none, high := 0 }) := by
      simp [applyUnary]
    rw [happly]
    exact hplain rfl
  | true =>
    unfold applyUnary
    rw [if_pos (by simp [hsync.live])]
    split
    · exact hplain rfl
    · rcases readValue_cases hsync.live v true with ⟨n, hn⟩ | ⟨c, hc, hread, hbad⟩
      · simp only [hn]
        split
        · intro r r' hr hr'
          cases hr
          cases hr'
          exact Or.inr ⟨by simp, fun he => by cases he⟩
        · exact hplain rfl
      · have hzero : ¬ (token = .sub ∧ (0 : ℤ) = longMin) := fun h0 => absurd h0.2 (by decide)
        simp only [hread, hzero, if_false]
        intro r r' hr hr'
        cases hr
        cases hr'
        exact Or.inr ⟨hc, fun he => Or.inr (hsync.options ▸ hbad he)⟩

/-- An operator, or a token that starts no operand. -/
theorem primary_operator {p : Parser F} (hnum : p.token ≠ .number) (hname : p.token ≠ .name)
    (hparen : p.token ≠ .lparen) (fuel : ℕ) (execute : Bool) :
    primary (fuel + 1) p execute =
      (if unaryToken p.token then
        (expression fuel (nextToken p) 14 execute).bind fun r =>
          some (applyUnary r.1 p.token r.2 execute)
      else some (reject p, {})) ∧
    primaryReads (fuel + 1) p execute =
      if unaryToken p.token then
        expressionReads fuel (nextToken p) 14 execute ++
          readsAfter (expression fuel (nextToken p) 14 execute) fun p value => readOf p value execute
      else [] := by
  rw [primary, primaryReads]
  cases htok : p.token <;>
    first
      | exact absurd htok hnum
      | exact absurd htok hname
      | exact absurd htok hparen
      | exact ⟨rfl, rfl⟩

/-- Behind a parenthesised expression. -/
def closeParen (p : Parser F) (value : Value) : Option (Parser F × Value) :=
  if p.error = .ok then
    if p.token ≠ .rparen then some (reject p, value) else some (nextToken p, value)
  else some (p, value)

theorem keeps_closeParen : Keeps (closeParen (F := F)) := by
  intro p v r hp hr
  rw [closeParen, if_neg hp] at hr
  cases hr
  rfl

theorem keeps_applyUnary (token : Token) (execute : Bool) :
    Keeps fun (p : Parser F) v => some (applyUnary p token v execute) := by
  intro p v r hp hr
  have happly : applyUnary p token v execute = (p, { v with name := none, high := 0 }) := by
    simp [applyUnary, hp]
  dsimp only at hr
  rw [happly] at hr
  cases hr
  rfl

theorem matches_primary (ih : Matching F options fuel) (h : Sync options p q) (execute : Bool) :
    Matches options (primaryReads (fuel + 1) p execute) (primary (fuel + 1) p execute)
      (primary (fuel + 1) q false) := by
  have htoken := h.token
  by_cases hnum : p.token = .number
  · rw [hnum] at htoken
    rw [primary, primary]
    simp only [hnum, htoken, h.lexeme]
    cases hlit : literal p.lexeme with
    | none => exact matches_stopped (by simp [nextToken]) (by simp [nextToken])
    | some v =>
      refine matches_some ⟨h.nextToken, rfl, fun x hx => ?_⟩
      -- a constant has no name
      rw [literal_eq] at hlit
      obtain ⟨n, -, rfl⟩ := Option.map_eq_some_iff.mp hlit
      cases hx
  by_cases hname : p.token = .name
  · rw [hname] at htoken
    rw [primary, primary]
    simp only [hname, htoken, h.lexeme]
    refine matches_some ⟨h.nextToken, rfl, fun x hx => ?_⟩
    cases hx
    exact h.named hname
  by_cases hparen : p.token = .lparen
  · rw [hparen] at htoken
    rw [primary, primary, primaryReads]
    simp only [hparen, htoken]
    have hclose : ∀ (p : Parser F) v q w, Agree options (p, v) (q, w) →
        Matches options [] (closeParen p v) (closeParen q w) := by
      intro p v q w hag
      have hsync : Sync options p q := hag.sync
      unfold closeParen
      rw [if_pos hsync.live, if_pos hsync.probe, hsync.token]
      split
      · exact matches_stopped (by simp [reject]) (by simp [reject])
      · exact matches_some ⟨hsync.nextToken, hag.name, hag.valid⟩
    refine ((ih.expression _ _ 1 execute le_rfl h.nextToken).bind keeps_closeParen keeps_closeParen
      hclose).mono ?_
    -- nothing is read behind the parenthesis
    have hnil : readsAfter (expression fuel (nextToken p) 1 execute) (fun _ _ => []) = [] := by
      unfold readsAfter
      split <;> rfl
    rw [hnil, List.append_nil]
    exact fun _ hr => hr
  · obtain ⟨hp, hreads⟩ := primary_operator hnum hname hparen fuel execute
    rw [← htoken] at hnum hname hparen
    obtain ⟨hq, -⟩ := primary_operator hnum hname hparen fuel false
    rw [hp, hq, hreads, htoken]
    split
    · refine (ih.expression _ _ 14 execute (by decide) h.nextToken).bind
        (keeps_applyUnary p.token execute) (keeps_applyUnary p.token false) ?_
      intro p' v q' w hag
      exact applyUnary_match hag p.token execute
    · exact matches_stopped (by simp [reject]) (by simp [reject])

theorem matches_all (fuel : ℕ) : Matching F options fuel := by
  induction fuel with
  | zero =>
    refine ⟨fun p q execute _ => ?_, fun p q minimum execute _ _ => ?_,
      fun p v q w minimum execute _ _ => ?_⟩
    · rw [primary]; exact matches_none
    · rw [expression]; exact matches_none
    · rw [climb]; exact matches_none
  | succ fuel ih =>
    exact ⟨fun p q execute h => matches_primary ih h execute,
      fun p q minimum execute hone h => matches_expression ih h hone execute,
      fun p v q w minimum execute hone h => matches_climb ih h hone execute⟩

end Induction

/-! ### The entry points -/

/-- `run` behind the expression. -/
def finish (execute : Bool) (p : Parser F) (result : Value) : Option (Parser F × ℤ) :=
  let p := if p.error = .ok ∧ p.token ≠ .eot then { p with error := .syntaxError } else p
  if p.error = .ok then some (readValue p result execute) else some (p, 0)

/-- The parser of the probe. -/
def probeParser (text : Bytes) : Parser Unit := { next := text, state := {} }

theorem sync_start (s : State F) (text : Bytes) :
    Sync s.info.options (nextToken (startParser s text)) (nextToken (probeParser text)) :=
  ⟨rfl, rfl, rfl, rfl, rfl, rfl, fun hname => scan_name hname⟩

theorem run_eq (fuel : ℕ) (p : Parser F) (execute : Bool) :
    run fuel p execute =
      (if (nextToken p).token ≠ .eot then expression fuel (nextToken p) 1 execute
        else some (nextToken p, {})).bind fun r => finish execute r.1 r.2 := by
  unfold run
  dsimp only
  split <;> rfl

theorem finish_of_error {p : Parser F} (hp : p.error ≠ .ok) (v : Value) (execute : Bool) :
    finish execute p v = some (p, 0) := by
  simp [finish, hp]

/-- How two results of `run` compare: success is shared, and a syntax error is
shared or due to an unreadable value. -/
def Compatible (options : UInt32) (reads : List Read) (error error' : ArithResult) : Prop :=
  (error = .ok → error' = .ok) ∧
    (error = .syntaxError → error' ≠ .ok ∨ ∃ r ∈ reads, Unreadable options r.2)

theorem Compatible.mono {options : UInt32} {reads reads' : List Read}
    (h : Compatible options reads e e') (hsub : reads ⊆ reads') :
    Compatible options reads' e e' := by
  refine ⟨h.1, fun he => ?_⟩
  rcases h.2 he with hprobe | ⟨r, hr, hbad⟩
  · exact Or.inl hprobe
  · exact Or.inr ⟨r, hsub hr, hbad⟩

theorem Stopped.compatible {options : UInt32}
    (h : Stopped options reads e e') : Compatible options reads e e' :=
  ⟨fun he => absurd he h.1, h.2⟩

theorem Sync.compatible_finish {options : UInt32} {p : Parser F} {q : Parser Unit}
    (h : Sync options p q) (v w : Value) (execute : Bool) :
    ∃ r r', finish execute p v = some r ∧ finish false q w = some r' ∧
      Compatible options (if p.token ≠ .eot then [] else readOf p v execute) r.1.error
        r'.1.error := by
  by_cases hend : p.token = .eot
  · have hq : finish false q w = some (q, 0) := by
      simp [finish, h.probe, h.token, hend, readValue_of_not_execute]
    have hp : finish execute p v = some (readValue p v execute) := by
      simp [finish, h.live, hend]
    refine ⟨_, _, hp, hq, ?_⟩
    rw [if_neg (fun hne => hne hend)]
    rcases readValue_cases h.live v execute with ⟨n, hn⟩ | ⟨c, hc, hread, hbad⟩
    · rw [hn]
      exact ⟨fun _ => h.probe, fun he => absurd (h.live.symm.trans he) (by decide)⟩
    · rw [hread]
      exact ⟨fun he => absurd he hc, fun he => Or.inr (h.options ▸ hbad he)⟩
  · have hq : finish false q w = some ({ q with error := .syntaxError }, 0) := by
      simp [finish, h.probe, h.token, hend]
    have hp : finish execute p v = some ({ p with error := .syntaxError }, 0) := by
      simp [finish, h.live, hend]
    refine ⟨_, _, hp, hq, fun he => ?_, fun _ => Or.inl (by simp)⟩
    cases he

/-- The two runs over a text are compatible. -/
theorem run_compatible (s : State F) (text : Bytes) {fuel : ℕ} {r : Parser F × ℤ}
    {r' : Parser Unit × ℤ} (hr : run fuel (startParser s text) true = some r)
    (hr' : run fuel (probeParser text) false = some r') :
    Compatible s.info.options (runReads fuel (startParser s text) true) r.1.error r'.1.error := by
  have hsync := sync_start s text
  rw [run_eq] at hr hr'
  rw [hsync.token] at hr'
  unfold runReads
  by_cases hend : (nextToken (startParser s text)).token ≠ .eot
  · rw [if_pos hend] at hr hr'
    obtain ⟨x, hx, hfin⟩ := Option.bind_eq_some_iff.mp hr
    obtain ⟨y, hy, hfin'⟩ := Option.bind_eq_some_iff.mp hr'
    simp only [if_pos hend, hx]
    rcases (matches_all fuel).expression _ _ 1 true le_rfl hsync x y hx hy with hag | hst
    · obtain ⟨z, z', hz, hz', hcomp⟩ := hag.sync.compatible_finish x.2 y.2 true
      rw [hz] at hfin
      rw [hz'] at hfin'
      cases hfin
      cases hfin'
      exact hcomp.mono (List.subset_append_right ..)
    · rw [finish_of_error hst.1] at hfin
      cases hfin
      refine Compatible.mono (Stopped.compatible (hst.carry rfl fun hne => ?_))
        (List.subset_append_left ..)
      rw [finish_of_error hne] at hfin'
      cases hfin'
      exact hne
  · rw [if_neg hend] at hr hr'
    obtain ⟨z, z', hz, hz', hcomp⟩ := hsync.compatible_finish {} {} true
    have hfin : finish true (nextToken (startParser s text)) {} = some r := hr
    have hfin' : finish false (nextToken (probeParser text)) {} = some r' := hr'
    rw [hz] at hfin
    rw [hz'] at hfin'
    cases hfin
    cases hfin'
    simpa [hend, readOf] using hcomp

/-- The probe has fuel enough for every text. -/
theorem arithProbe_eq (text : Bytes) :
    ∃ r, run (enoughFuel text) (probeParser text) false = some r ∧ arithProbe text = r.1.error := by
  have hrem : remaining (nextToken (probeParser text)) ≤ text.length :=
    remaining_start ({} : State Unit) text
  obtain ⟨x, hx⟩ := expression_enough (p := nextToken (probeParser text)) le_rfl false
    (n := enoughFuel text) (by unfold enoughFuel; omega)
  have hrun : ∃ r, run (enoughFuel text) (probeParser text) false = some r := by
    have hfin : ∀ (p : Parser Unit) v, ∃ r, finish false p v = some r := by
      intro p v
      unfold finish
      dsimp only
      split
      · exact ⟨_, rfl⟩
      · split <;> exact ⟨_, rfl⟩
    rw [run_eq]
    split
    · rw [hx]; exact hfin _ _
    · exact hfin _ _
  obtain ⟨r, hr⟩ := hrun
  refine ⟨r, hr, ?_⟩
  unfold arithProbe
  simp only [show ({ next := text, state := {} } : Parser Unit) = probeParser text from rfl, hr]

/-- **The grammar probe and the evaluator agree.**  A text that evaluates in some
state passes the probe; and where a text that passes the probe is called a syntax
error, the evaluation has read a variable whose value is no optionally signed
constant, or an unset one while `nounset` is on. -/
theorem arithProbe_agrees (s : State F) (text : Bytes) :
    ((arithEval s text).result = .ok → arithProbe text = .ok) ∧
    (arithProbe text = .ok → (arithEval s text).result = .syntaxError →
      ∃ r ∈ arithReads s text, Unreadable s.info.options r.2) := by
  obtain ⟨r', hr', hprobe⟩ := arithProbe_eq text
  rw [hprobe]
  unfold arithEval
  cases s.save with
  | none => exact ⟨(fun h => by cases h), fun _ h => by cases h⟩
  | some checkpoint =>
    simp only [show ({ next := text, state := s, options := s.info.options } : Parser F)
      = startParser s text from rfl]
    cases hr : run (enoughFuel text) (startParser s text) true with
    | none => exact ⟨(fun h => by cases h), fun _ h => by cases h⟩
    | some r =>
      obtain ⟨p, number⟩ := r
      have hcomp := run_compatible s text hr hr'
      by_cases hok : p.error = .ok
      · simp only [hok, if_true]
        exact ⟨fun _ => hcomp.1 hok, fun _ h => by cases h⟩
      · dsimp only
        rw [if_neg hok]
        refine ⟨fun h => absurd h hok, fun hprobe h => ?_⟩
        rcases hcomp.2 h with hne | hbad
        · exact absurd hprobe hne
        · exact hbad

/-- With `y` in the variable `x`, the text `x?1:2` passes the probe and is a syntax
error, while `1||x` evaluates without reading it. -/
theorem arithProbe_agrees_text :
    ∃ s : State Unit, arithProbe (ascii "1||x") = .ok ∧ arithReads s (ascii "1||x") = [] ∧
      (arithEval s (ascii "x?1:2")).result = .syntaxError ∧
      ∃ r ∈ arithReads s (ascii "x?1:2"), Unreadable s.info.options r.2 := by
  let s : State Unit := ((State.create [] [] [] 1 .stdin 0 false : State Unit).setVariable
    (ascii "x") (ascii "y")).2
  have hok : (arithEval s (ascii "1||x")).result = .ok := rfl
  have herr : (arithEval s (ascii "x?1:2")).result = .syntaxError := rfl
  exact ⟨s, (arithProbe_agrees s (ascii "1||x")).1 hok, rfl, herr,
    (arithProbe_agrees s (ascii "x?1:2")).2 rfl herr⟩

end Arithmetic
end CShell
