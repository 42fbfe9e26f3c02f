import CShell.Arithmetic.Model

/-!
# Reference semantics of arithmetic expressions

What an arithmetic expression means, apart from how `arithmetic.c` computes it:
a maximal-munch tokenisation, a stratified C-style grammar whose derivations are
syntax trees, and a left-to-right big-step evaluation of the trees.

A text that is no expression still has a meaning, the class of its first
failure: the evaluation steps that lie left of the point where reading stops
come first and may fail before it.  `Broken` derives the tree of the part that
can be read, ending in a `hole`, and the evaluation of a `hole` is a syntax
error whether or not the arm it stands in is taken.

## Main definitions

* `Tokenises text ts` — maximal munch; `++` and `--` are tokens no rule uses.
* `Derives k ts e` — the tokens `ts` form a level-`k` expression with tree `e`;
  levels are the precedences 1 (comma) to 13 (multiplicative), and 14 (unary).
* `Broken k ts e` — reading a level-`k` expression off `ts` stops, and `e` is what
  was read.
* `designate e s` — evaluate `e` up to the reading of its value; `eval` reads it.
* `Succeeds`, `Fails` — the two outcomes of a text in a state.
-/

namespace CShell
namespace Arithmetic

/-! ### Tokens -/

/-- A token: its kind and its spelling. -/
structure Tok where
  kind : Token
  lexeme : Bytes := []
  deriving DecidableEq, Repr, Inhabited

/-- The kind of a maximal run of letters, digits and underscores. -/
def wordKind : Bytes → Token
  | byte :: _ => if digit byte then .number else .name
  | [] => .bad

/-- **Maximal munch.**  A word is as long as possible and an operator is the
longest one that fits; a byte that starts neither is a token of its own. -/
inductive Tokenises : Bytes → List Tok → Prop
  | nil : Tokenises [] []
  | space {byte rest ts} (hspace : space byte = true) (h : Tokenises rest ts) :
      Tokenises (byte :: rest) ts
  | word {w rest ts} (hne : w ≠ []) (hw : ∀ b ∈ w, nameByte b = true)
      (hmax : ∀ b ∈ rest.head?, nameByte b = false) (h : Tokenises rest ts) :
      Tokenises (w ++ rest) (⟨wordKind w, w⟩ :: ts)
  | operator {o k rest ts} (hop : (o, k) ∈ operators)
      (hmax : ∀ o' k', (o', k') ∈ operators → o' <+: o ++ rest → o'.length ≤ o.length)
      (h : Tokenises rest ts) : Tokenises (o ++ rest) (⟨k, o⟩ :: ts)
  | stray {byte rest ts} (hspace : space byte = false) (hname : nameByte byte = false)
      (hop : ∀ o k, (o, k) ∈ operators → ¬ o <+: byte :: rest) (h : Tokenises rest ts) :
      Tokenises (byte :: rest) (⟨.bad, [byte]⟩ :: ts)

/-! ### Syntax trees -/

/-- The digits of a constant in a base, if all of them are digits there. -/
def digits? (base : ℕ) : Bytes → Option (List ℕ)
  | [] => some []
  | byte :: rest =>
    match digitValue byte with
    | none => none
    | some d => if d < base then (digits? base rest).map (d :: ·) else none

/-- The magnitude of a decimal, octal or hexadecimal constant. -/
def constant (text : Bytes) : Option ℕ :=
  (literalBase text).bind fun bd =>
    (digits? bd.1 bd.2).map fun ds => ds.foldl (fun n d => n * bd.1 + d) 0

/-- Syntax trees.  Parentheses leave no trace.  The last two constructors occur
only in what can be read of a text that is no expression. -/
inductive Expr
  | num (magnitude : ℕ)
  | var (name : Bytes)
  | unary (op : Token) (e : Expr)
  | binary (op : Token) (l r : Expr)
  | cond (c a b : Expr)
  | assign (op : Token) (name : Bytes) (e : Expr)
  /-- An operand that is missing. -/
  | hole
  /-- An expression behind which the text cannot go on. -/
  | stop (e : Expr)
  deriving DecidableEq, Repr, Inhabited

/-- The name of a tree that is nothing but a name. -/
def Expr.target : Expr → Option Bytes
  | .var x => some x
  | _ => none

/-- A tree is holed when reading it stopped somewhere. -/
def Expr.holed : Expr → Bool
  | .num _ | .var _ => false
  | .unary _ e => e.holed
  | .binary _ l r => l.holed || r.holed
  | .cond c a b => c.holed || a.holed || b.holed
  | .assign _ _ e => e.holed
  | .hole => true
  | .stop _ => true

/-! ### The grammar -/

/-- A left-associative binary operator of level `k`: comma, or one of the levels
`||` (4) to multiplicative (13). -/
def BinaryAt (k : ℕ) (op : Token) : Prop := precedence op = k ∧ (k = 1 ∨ 4 ≤ k)

/-- **The stratified grammar.** -/
inductive Derives : ℕ → List Tok → Expr → Prop
  | number {l n} (hn : constant l = some n) : Derives 14 [⟨.number, l⟩] (.num n)
  | name {x} : Derives 14 [⟨.name, x⟩] (.var x)
  | paren {l l' ts e} (h : Derives 1 ts e) :
      Derives 14 (⟨.lparen, l⟩ :: (ts ++ [⟨.rparen, l'⟩])) e
  | unary {op l ts e} (hop : unaryToken op = true) (h : Derives 14 ts e) :
      Derives 14 (⟨op, l⟩ :: ts) (.unary op e)
  | binary {k op l ts₁ ts₂ e₁ e₂} (hop : BinaryAt k op) (h₁ : Derives k ts₁ e₁)
      (h₂ : Derives (k + 1) ts₂ e₂) : Derives k (ts₁ ++ ⟨op, l⟩ :: ts₂) (.binary op e₁ e₂)
  | cond {l l' ts₁ ts₂ ts₃ c a b} (h₁ : Derives 4 ts₁ c) (h₂ : Derives 1 ts₂ a)
      (h₃ : Derives 3 ts₃ b) :
      Derives 3 (ts₁ ++ ⟨.question, l⟩ :: (ts₂ ++ ⟨.colon, l'⟩ :: ts₃)) (.cond c a b)
  | assign {op l ts₁ ts₂ x e} (hop : precedence op = 2) (h₁ : Derives 14 ts₁ (.var x))
      (h₂ : Derives 2 ts₂ e) : Derives 2 (ts₁ ++ ⟨op, l⟩ :: ts₂) (.assign op x e)
  | lift {k ts e} (hk : 1 ≤ k) (h : Derives (k + 1) ts e) : Derives k ts e

/-- A token that starts an operand. -/
def Tok.startsOperand (t : Tok) : Bool :=
  match t.kind with
  | .number => (constant t.lexeme).isSome
  | .name | .lparen => true
  | op => unaryToken op

/-- No operator follows: the tokens are at their end, or go on with one that
continues no expression. -/
def Stops (ts : List Tok) : Prop := ∀ t ∈ ts.head?, precedence t.kind = 0

/-- **Where reading stops.**  `Broken k ts e` says that `ts` does not start with a
complete level-`k` expression, and `e` is the tree up to the first token that
cannot continue it. -/
inductive Broken : ℕ → List Tok → Expr → Prop
  | operand {ts} (h : ∀ t ∈ ts.head?, t.startsOperand = false) : Broken 14 ts .hole
  | inside {l ts e} (h : Broken 1 ts e) : Broken 14 (⟨.lparen, l⟩ :: ts) e
  | unclosed {l ts rest e} (h : Derives 1 ts e) (hstop : Stops rest)
      (hrest : ∀ t ∈ rest.head?, t.kind ≠ .rparen) :
      Broken 14 (⟨.lparen, l⟩ :: (ts ++ rest)) (.stop e)
  | unary {op l ts e} (hop : unaryToken op = true) (h : Broken 14 ts e) :
      Broken 14 (⟨op, l⟩ :: ts) (.unary op e)
  | binary {k op l ts₁ ts₂ e₁ e₂} (hop : BinaryAt k op) (h₁ : Derives k ts₁ e₁)
      (h₂ : Broken (k + 1) ts₂ e₂) : Broken k (ts₁ ++ ⟨op, l⟩ :: ts₂) (.binary op e₁ e₂)
  | middle {l ts₁ ts₂ c a} (h₁ : Derives 4 ts₁ c) (h₂ : Broken 1 ts₂ a) :
      Broken 3 (ts₁ ++ ⟨.question, l⟩ :: ts₂) (.cond c a .hole)
  | colon {l ts₁ ts₂ rest c a} (h₁ : Derives 4 ts₁ c) (h₂ : Derives 1 ts₂ a)
      (hstop : Stops rest) (hrest : ∀ t ∈ rest.head?, t.kind ≠ .colon) :
      Broken 3 (ts₁ ++ ⟨.question, l⟩ :: (ts₂ ++ rest)) (.cond c a .hole)
  | last {l l' ts₁ ts₂ ts₃ c a b} (h₁ : Derives 4 ts₁ c) (h₂ : Derives 1 ts₂ a)
      (h₃ : Broken 3 ts₃ b) :
      Broken 3 (ts₁ ++ ⟨.question, l⟩ :: (ts₂ ++ ⟨.colon, l'⟩ :: ts₃)) (.cond c a b)
  | assign {op l ts₁ ts₂ x e} (hop : precedence op = 2) (h₁ : Derives 14 ts₁ (.var x))
      (h₂ : Broken 2 ts₂ e) : Broken 2 (ts₁ ++ ⟨op, l⟩ :: ts₂) (.assign op x e)
  | target {op l ts rest e} (hop : precedence op = 2) (h : Derives 3 ts e)
      (he : e.target = none) : Broken 2 (ts ++ ⟨op, l⟩ :: rest) (.stop e)
  | lift {k ts e} (hk : 1 ≤ k) (h : Broken (k + 1) ts e) : Broken k ts e

/-- The tree of a whole text: an expression, nothing at all (which denotes zero),
or what can be read of a text that is no expression. -/
inductive Reading : List Tok → Expr → Prop
  | blank : Reading [] (.num 0)
  | complete {ts e} (h : Derives 1 ts e) : Reading ts e
  | broken {ts e} (hne : ts ≠ []) (h : Broken 1 ts e) : Reading ts e
  | trailing {ts t rest e} (h : Derives 1 ts e) (ht : precedence t.kind = 0) :
      Reading (ts ++ t :: rest) (.stop e)

/-! ### Evaluation -/

/-- An operand before its value is read. -/
inductive Operand
  | value (n : ℤ)
  | num (magnitude : ℕ)
  | var (name : Bytes)
  deriving DecidableEq, Repr, Inhabited

/-- A result that must be representable. -/
def fit (n : ℤ) : Except ArithResult ℤ :=
  if longMin ≤ n ∧ n ≤ longMax then .ok n else .error .range

/-- The binary operators on mathematical integers. -/
def arith : Token → ℤ → ℤ → Except ArithResult ℤ
  | .add, a, b => fit (a + b)
  | .sub, a, b => fit (a - b)
  | .mul, a, b => fit (a * b)
  | .div, a, b => if b = 0 then .error .range else fit (a.tdiv b)
  | .mod, a, b =>
    -- the remainder exists only when the quotient does
    if b = 0 then .error .range else (fit (a.tdiv b)).map fun _ => a.tmod b
  | .shl, a, b => if 0 ≤ a ∧ 0 ≤ b ∧ b < 64 then fit (a * 2 ^ b.toNat) else .error .range
  | .shr, a, b => if 0 ≤ b ∧ b < 64 then .ok (a / 2 ^ b.toNat) else .error .range
  | .lt, a, b => .ok (truth (a < b))
  | .le, a, b => .ok (truth (a ≤ b))
  | .gt, a, b => .ok (truth (a > b))
  | .ge, a, b => .ok (truth (a ≥ b))
  | .eq, a, b => .ok (truth (a = b))
  | .ne, a, b => .ok (truth (a ≠ b))
  | .bitAnd, a, b => .ok (bitwise (· &&& ·) a b)
  | .bitXor, a, b => .ok (bitwise (· ^^^ ·) a b)
  | .bitOr, a, b => .ok (bitwise (· ||| ·) a b)
  | .comma, _, b => .ok b
  | _, _, _ => .error .syntaxError

/-- The unary operators. -/
def unaryArith : Token → ℤ → Except ArithResult ℤ
  | .sub, a => fit (-a)
  | .not, a => .ok (truth (a = 0))
  | .inv, a => .ok (-a - 1)
  | _, a => .ok a

/-- A signed constant as the value of a variable. -/
def signedConstant (negative : Bool) (digits : Bytes) : Except ArithResult ℤ :=
  match constant digits with
  | none => .error .syntaxError
  | some n => fit (if negative then -n else n)

/-- The number a variable's text stands for: an empty text is zero, any other an
optionally signed constant. -/
def textValue : Bytes → Except ArithResult ℤ
  | [] => .ok 0
  | byte :: rest =>
    if byte = byteOf '-' then signedConstant true rest
    else if byte = byteOf '+' then signedConstant false rest
    else signedConstant false (byte :: rest)

variable {F : Type}

/-- Reading an operand.  An unset variable is zero, or an error under `nounset`. -/
def read (s : State F) : Operand → Except ArithResult ℤ
  | .value n => .ok n
  | .num n => fit n
  | .var x =>
    match (s.getVariable x).2.value with
    | none => if hasBit s.info.options Opt.nounset then .error .syntaxError else .ok 0
    | some text => textValue text

/-- Evaluate an operand and read it. -/
def force (r : Except ArithResult (Operand × State F)) : Except ArithResult (ℤ × State F) :=
  match r with
  | .error c => .error c
  | .ok (o, s) => (read s o).map fun n => (n, s)

/-- An arm that is not taken is only checked to be readable. -/
def skip (e : Expr) : Except ArithResult Unit :=
  if e.holed then .error .syntaxError else .ok ()

/-- Assign a number to a variable. -/
def storeValue (s : State F) (x : Bytes) (n : ℤ) : Except ArithResult (Operand × State F) :=
  match store s s.info.options x n with
  | (.ok, s) => .ok (.value n, s)
  | (.readonly, _) => .error .readonly
  | (.nomem, _) => .error .nomem
  | (.invalid, _) => .error .syntaxError

/-- **Left-to-right evaluation**, up to the reading of the value itself. -/
def designate : Expr → State F → Except ArithResult (Operand × State F)
  | .num n, s => .ok (.num n, s)
  | .var x, s => .ok (.var x, s)
  | .hole, _ => .error .syntaxError
  | .stop e, s => do
    let _ ← designate e s
    .error .syntaxError
  | .unary op e, s => do
    let (o, s) ← designate e s
    -- the one place where the magnitude `2^63` is a number
    if op = .sub ∧ o = .num (2 ^ 63) then .ok (.value longMin, s)
    else do
      let n ← read s o
      let v ← unaryArith op n
      .ok (.value v, s)
  | .binary .and l r, s => do
    let (a, s) ← force (designate l s)
    if a = 0 then do
      skip r
      .ok (.value 0, s)
    else do
      let (b, s) ← force (designate r s)
      .ok (.value (truth (b ≠ 0)), s)
  | .binary .or l r, s => do
    let (a, s) ← force (designate l s)
    if a ≠ 0 then do
      skip r
      .ok (.value 1, s)
    else do
      let (b, s) ← force (designate r s)
      .ok (.value (truth (b ≠ 0)), s)
  | .binary op l r, s => do
    let (a, s) ← force (designate l s)
    let (b, s) ← force (designate r s)
    let v ← arith op a b
    .ok (.value v, s)
  | .cond c a b, s => do
    let (n, s) ← force (designate c s)
    if n ≠ 0 then do
      let (v, s) ← force (designate a s)
      skip b
      .ok (.value v, s)
    else do
      skip a
      let (v, s) ← force (designate b s)
      .ok (.value v, s)
  | .assign .assign x e, s => do
    let (n, s) ← force (designate e s)
    storeValue s x n
  | .assign op x e, s => do
    let old ← read s (.var x)
    let (n, s) ← force (designate e s)
    let v ← arith (assignmentOperation op) old n
    storeValue s x v

/-- Evaluate an expression to its value. -/
def eval (e : Expr) (s : State F) : Except ArithResult (ℤ × State F) := force (designate e s)

/-- The text is an expression, or blank, and has value `v` and final state `s'`. -/
def Succeeds (text : Bytes) (s : State F) (v : ℤ) (s' : State F) : Prop :=
  ∃ ts e, Tokenises text ts ∧ (Derives 1 ts e ∨ ts = [] ∧ e = .num 0) ∧ eval e s = .ok (v, s')

/-- The first failure of the text is of class `c`. -/
def Fails (text : Bytes) (s : State F) (c : ArithResult) : Prop :=
  ∃ ts e, Tokenises text ts ∧ Reading ts e ∧ eval e s = .error c

end Arithmetic
end CShell
