import CShell.State

/-!
# The arithmetic evaluator

`arithmetic.c` parses and evaluates an expression in one pass: `expression` is a
precedence-climbing recursion that carries an `execute` flag, delays reading a
variable until its value is needed, and delays rejecting a literal of magnitude
`2^63` until it is known not to stand behind a unary minus.

A C `long` is an `Int`; every computation below is guarded by the checks of the
source, so that no intermediate result leaves the 64-bit range.  The mutual
recursion is bounded by fuel, and running out of it is reported as
`csh_stack_check` reports a full native stack; `arithEval` supplies enough for
every text.

## Main definitions

* `nextToken`, `literal`, `readValue`, `assign`, `operation` — the helpers.
* `primary`, `expression`, `climb` — the recursion; `climb` is the `while` loop
  of `expression`.
* `arithEval`, `arithProbe`, `arithProbePrefix` — the entry points.

## References

`src/arithmetic.c`.
-/

namespace CShell
namespace Arithmetic

/-- `enum csh_arith_result`. -/
inductive ArithResult
  | ok
  | syntaxError
  | range
  | nomem
  | readonly
  | resource
  deriving DecidableEq, Repr, Inhabited

/-- `enum token`; `eot` is `TOK_END`. -/
inductive Token
  | eot | bad | number | name | lparen | rparen
  | comma | assign | mulAssign | divAssign | modAssign
  | addAssign | subAssign | shlAssign | shrAssign
  | andAssign | xorAssign | orAssign | question | colon
  | or | and | bitOr | bitXor | bitAnd | eq | ne
  | lt | le | gt | ge | shl | shr | add | sub
  | mul | div | mod | not | inv
  deriving DecidableEq, Repr, Inhabited

/-- `struct value`: a number, an unresolved variable, or a delayed literal.
`high` is 1 for a literal of magnitude `2^63` and 2 above it. -/
structure Value where
  number : ℤ := 0
  name : Option Bytes := none
  high : ℕ := 0
  deriving DecidableEq, Repr, Inhabited

/-- `struct parser`; `lexeme` is the `length` bytes at `start`. -/
structure Parser (F : Type) where
  next : Bytes
  lexeme : Bytes := []
  token : Token := .eot
  error : ArithResult := .ok
  state : State F
  options : UInt32 := 0
  incomplete : Bool := false

/-- `LONG_MAX` and `LONG_MIN` of a 64-bit `long`. -/
def longMax : ℤ := 2 ^ 63 - 1

@[inherit_doc longMax]
def longMin : ℤ := -2 ^ 63

/-! ### Characters and constants -/

/-- `space`. -/
def space (byte : UInt8) : Bool :=
  byte == byteOf ' ' || byte == 9 || byte == 10 || byte == 13 || byte == 11 || byte == 12

/-- `digit_value`; the source's `-1` is `none`. -/
def digitValue (byte : UInt8) : Option ℕ :=
  if digit byte then some (byte.toNat - '0'.toNat)
  else if inRange 'a' 'f' byte then some (byte.toNat - 'a'.toNat + 10)
  else if inRange 'A' 'F' byte then some (byte.toNat - 'A'.toNat + 10)
  else none

/-- The digit loop of `literal`: the magnitude saturates once it would pass
`2^63`. -/
def literalLoop (base : ℕ) : Bytes → ℕ → Bool → Option (ℕ × Bool)
  | [], magnitude, tooLarge => some (magnitude, tooLarge)
  | byte :: rest, magnitude, tooLarge =>
    match digitValue byte with
    | none => none
    | some number =>
      if base ≤ number then none
      else if tooLarge then literalLoop base rest magnitude true
      else if (2 ^ 63 - number) / base < magnitude then literalLoop base rest magnitude true
      else literalLoop base rest (magnitude * base + number) false

/-- The base of a constant and the digits it is read from.  A lone `0x` has no
digits and is rejected. -/
def literalBase : Bytes → Option (ℕ × Bytes)
  | [] => none
  | first :: rest =>
    if first == byteOf '0' then
      match rest with
      | second :: digits =>
        if second == byteOf 'x' || second == byteOf 'X' then
          if digits.isEmpty then none else some (16, digits)
        else some (8, first :: rest)
      | [] => some (8, first :: rest)
    else some (10, first :: rest)

/-- `literal`: a decimal, octal or hexadecimal constant. -/
def literal (text : Bytes) : Option Value := do
  let (base, digits) ← literalBase text
  let (magnitude, tooLarge) ← literalLoop base digits 0 false
  let high := if tooLarge then 2 else if 2 ^ 63 - 1 < magnitude then 1 else 0
  some { number := if high = 0 then (magnitude : ℤ) else 0, high }

/-! ### Tokens -/

/-- The `operators` table of `next_token`. -/
def operators : List (Bytes × Token) :=
  [(ascii "<<=", .shlAssign), (ascii ">>=", .shrAssign),
   (ascii "*=", .mulAssign), (ascii "/=", .divAssign),
   (ascii "%=", .modAssign), (ascii "+=", .addAssign),
   (ascii "-=", .subAssign), (ascii "&=", .andAssign),
   (ascii "^=", .xorAssign), (ascii "|=", .orAssign),
   (ascii "||", .or), (ascii "&&", .and), (ascii "==", .eq),
   (ascii "!=", .ne), (ascii "<=", .le), (ascii ">=", .ge),
   (ascii "<<", .shl), (ascii ">>", .shr), (ascii "++", .bad), (ascii "--", .bad),
   (ascii "(", .lparen), (ascii ")", .rparen), (ascii ",", .comma),
   (ascii "=", .assign), (ascii "?", .question), (ascii ":", .colon),
   (ascii "|", .bitOr), (ascii "^", .bitXor), (ascii "&", .bitAnd),
   (ascii "<", .lt), (ascii ">", .gt), (ascii "+", .add), (ascii "-", .sub),
   (ascii "*", .mul), (ascii "/", .div), (ascii "%", .mod),
   (ascii "!", .not), (ascii "~", .inv)]

/-- One token of a text: its kind, its spelling and the text behind it. -/
structure Scan where
  token : Token
  lexeme : Bytes
  next : Bytes
  deriving DecidableEq, Repr

/-- The part of `next_token` behind the leading white space. -/
def scanWord (text : Bytes) : Scan :=
  match text with
  | [] => ⟨.eot, [], []⟩
  | byte :: rest =>
    if nameByte byte then
      ⟨if digit byte then .number else .name, byte :: rest.takeWhile nameByte,
        rest.dropWhile nameByte⟩
    else match operators.find? fun op => op.1.isPrefixOf text with
      | some op => ⟨op.2, op.1, text.drop op.1.length⟩
      | none => ⟨.bad, [byte], rest⟩

/-- The token `next_token` finds in a text. -/
def scan (text : Bytes) : Scan := scanWord (text.dropWhile space)

variable {F : Type}

/-- `next_token`. -/
def nextToken (p : Parser F) : Parser F :=
  let t := scan p.next
  { p with token := t.token, lexeme := t.lexeme, next := t.next }

/-! ### Values -/

/-- The value of a variable's text: an optional sign and a constant. -/
def readText (text : Bytes) : Except ArithResult ℤ :=
  let negative := text.head? == some (byteOf '-')
  let digits := if negative || text.head? == some (byteOf '+') then text.tail else text
  match literal digits with
  | none => .error .syntaxError
  | some value =>
    if negative && value.high == 1 then .ok longMin
    else
      let number := if negative then -value.number else value.number
      if value.high != 0 then .error .range else .ok number

/-- `read_value`. -/
def readValue (p : Parser F) (value : Value) (execute : Bool) : Parser F × ℤ :=
  if !execute || p.error != .ok then (p, 0)
  else match value.name with
    | some name =>
      match (p.state.getVariable name).2.value with
      | none =>
        if hasBit p.options Opt.nounset then ({ p with error := .syntaxError }, 0) else (p, 0)
      | some [] => (p, 0)
      | some (byte :: rest) =>
        match readText (byte :: rest) with
        | .error e => ({ p with error := e }, 0)
        | .ok number => (p, number)
    | none => if value.high != 0 then ({ p with error := .range }, 0) else (p, value.number)

/-- `snprintf("%ld", number)`. -/
def decimal (number : ℤ) : Bytes :=
  let digits := (Nat.toDigits 10 number.natAbs).map byteOf
  if number < 0 then byteOf '-' :: digits else digits

/-- The state operations of `assign`. -/
def store (s : State F) (options : UInt32) (name : Bytes) (number : ℤ) : StateResult × State F :=
  match s.setVariable name (decimal number) with
  | (.ok, s) =>
    if hasBit options Opt.allexport then s.updateAttributes name Attr.exported 0 else (.ok, s)
  | failed => failed

/-- `assign`. -/
def assign (p : Parser F) (target : Bytes) (number : ℤ) : Parser F :=
  match store p.state p.options target number with
  | (.ok, s) => { p with state := s }
  | (.nomem, s) => { p with state := s, error := .nomem }
  | (.readonly, s) => { p with state := s, error := .readonly }
  | (.invalid, s) => { p with state := s, error := .syntaxError }

/-- A bitwise operator on the two's complement representation of a `long`. -/
def bitwise (op : BitVec 64 → BitVec 64 → BitVec 64) (left right : ℤ) : ℤ :=
  (op (BitVec.ofInt 64 left) (BitVec.ofInt 64 right)).toInt

/-- A C truth value. -/
def truth (b : Bool) : ℤ := if b then 1 else 0

/-- The `switch` of `operation`.  `none` is a `break` to the range error at its
end, and the outer `none` the default label. -/
def compute (token : Token) (left right : ℤ) : Option (Option ℤ) :=
  match token with
  | .add =>
    some (if (0 < right ∧ longMax - right < left) ∨ (right < 0 ∧ left < longMin - right) then none
      else some (left + right))
  | .sub =>
    some (if (right < 0 ∧ longMax + right < left) ∨ (0 < right ∧ left < longMin + right) then none
      else some (left - right))
  | .mul =>
    some (if (if 0 < left then (if 0 < right then longMax.tdiv right < left
          else right < longMin.tdiv left)
        else left < 0 ∧ (if 0 < right then left < longMin.tdiv right
          else right < 0 ∧ left < longMax.tdiv right)) then none
      else some (left * right))
  | .div =>
    some (if right = 0 ∨ (left = longMin ∧ right = -1) then none else some (left.tdiv right))
  | .mod =>
    some (if right = 0 ∨ (left = longMin ∧ right = -1) then none else some (left.tmod right))
  | .shl =>
    some (if right < 0 ∨ 64 ≤ right then none
      else if left < 0 ∨ longMax >>> right.toNat < left then none
      else some (left <<< right.toNat))
  | .shr =>
    some (if right < 0 ∨ 64 ≤ right then none
      else some (if 0 ≤ left then left >>> right.toNat else -1 - ((-1 - left) >>> right.toNat)))
  | .lt => some (some (truth (left < right)))
  | .le => some (some (truth (left ≤ right)))
  | .gt => some (some (truth (right < left)))
  | .ge => some (some (truth (right ≤ left)))
  | .eq => some (some (truth (left = right)))
  | .ne => some (some (truth (left ≠ right)))
  | .bitAnd => some (some (bitwise (· &&& ·) left right))
  | .bitXor => some (some (bitwise (· ^^^ ·) left right))
  | .bitOr => some (some (bitwise (· ||| ·) left right))
  | .and => some (some (truth (left ≠ 0 ∧ right ≠ 0)))
  | .or => some (some (truth (left ≠ 0 ∨ right ≠ 0)))
  | .comma => some (some right)
  | _ => none

/-- `operation`. -/
def operation (p : Parser F) (token : Token) (left right : ℤ) : Parser F × ℤ :=
  match compute token left right with
  | none => ({ p with error := .syntaxError }, 0)
  | some none => ({ p with error := .range }, 0)
  | some (some number) => (p, number)

/-- `precedence`. -/
def precedence : Token → ℕ
  | .comma => 1
  | .assign | .mulAssign | .divAssign | .modAssign | .addAssign | .subAssign
  | .shlAssign | .shrAssign | .andAssign | .xorAssign | .orAssign => 2
  | .question => 3
  | .or => 4
  | .and => 5
  | .bitOr => 6
  | .bitXor => 7
  | .bitAnd => 8
  | .eq | .ne => 9
  | .lt | .le | .gt | .ge => 10
  | .shl | .shr => 11
  | .add | .sub => 12
  | .mul | .div | .mod => 13
  | _ => 0

/-- `assignment_operation`. -/
def assignmentOperation : Token → Token
  | .mulAssign => .mul
  | .divAssign => .div
  | .modAssign => .mod
  | .addAssign => .add
  | .subAssign => .sub
  | .shlAssign => .shl
  | .shrAssign => .shr
  | .andAssign => .bitAnd
  | .xorAssign => .bitXor
  | .orAssign => .bitOr
  | _ => .bad

/-- The unary operators of `primary`. -/
def unaryToken : Token → Bool
  | .add | .sub | .not | .inv => true
  | _ => false

/-- What `primary` makes of the operand of a unary operator. -/
def applyUnary (p : Parser F) (token : Token) (value : Value) (execute : Bool) :
    Parser F × Value :=
  if execute && p.error == .ok then
    if token == .sub && value.name.isNone && value.high == 1 then
      (p, { number := longMin })
    else
      let (p, number) := readValue p value execute
      if token = .sub ∧ number = longMin then
        ({ p with error := .range }, { value with name := none, high := 0 })
      else
        let result := match token with
          | .sub => -number
          | .not => truth (number = 0)
          | .inv => -number - 1
          | _ => number
        (p, { number := result })
  else (p, { value with name := none, high := 0 })

/-- A syntax error at the current token; at the end of the text the expression
is merely incomplete. -/
def reject (p : Parser F) : Parser F :=
  { p with error := .syntaxError, incomplete := p.token == .eot }

mutual

/-- `primary`. -/
def primary : ℕ → Parser F → Bool → Option (Parser F × Value)
  | 0, _, _ => none
  | fuel + 1, p, execute =>
    match p.token with
    | .number =>
      match literal p.lexeme with
      | some value => some (nextToken p, value)
      | none => some (nextToken { p with error := .syntaxError }, {})
    | .name => some (nextToken p, { name := some p.lexeme })
    | .lparen => do
      let (p, value) ← expression fuel (nextToken p) 1 execute
      if p.error = .ok then
        if p.token ≠ .rparen then some (reject p, value) else some (nextToken p, value)
      else some (p, value)
    | token =>
      if unaryToken token then do
        let (p, value) ← expression fuel (nextToken p) 14 execute
        some (applyUnary p token value execute)
      else some (reject p, {})

/-- `expression`. -/
def expression : ℕ → Parser F → ℕ → Bool → Option (Parser F × Value)
  | 0, _, _, _ => none
  | fuel + 1, p, minimum, execute =>
    if p.error ≠ .ok then some (p, {})
    else do
      let (p, left) ← primary fuel p execute
      climb fuel p left minimum execute

/-- The `while` loop of `expression`. -/
def climb : ℕ → Parser F → Value → ℕ → Bool → Option (Parser F × Value)
  | 0, _, _, _, _ => none
  | fuel + 1, p, left, minimum, execute =>
    if p.error = .ok ∧ minimum ≤ precedence p.token then
      let token := p.token
      let priority := precedence token
      let p := nextToken p
      if priority = 2 ∧ left.name = none then some ({ p with error := .syntaxError }, left)
      else
        let (p, lhs) := if token ≠ .assign then readValue p left execute else (p, 0)
        if token = .question then do
          let (p, selected) ← expression fuel p 1 (execute && lhs != 0)
          let (p, yes) := readValue p selected (execute && lhs != 0)
          if p.error ≠ .ok then some (p, left)
          else if p.token ≠ .colon then some (reject p, left)
          else do
            let (p, selected) ← expression fuel (nextToken p) priority (execute && lhs == 0)
            let (p, rhs) := readValue p selected (execute && lhs == 0)
            climb fuel p { number := if lhs ≠ 0 then yes else rhs } minimum execute
        else do
          let rightExecute := execute && !(token == .and && lhs == 0) && !(token == .or && lhs != 0)
          let (p, right) ← expression fuel p (if priority = 2 then 2 else priority + 1) rightExecute
          let (p, rhs) := readValue p right rightExecute
          if execute = true ∧ p.error = .ok then
            if priority = 2 then
              let (p, number) := if token = .assign then (p, rhs)
                else operation p (assignmentOperation token) lhs rhs
              let p := if p.error = .ok then assign p (left.name.getD []) number else p
              climb fuel p { number } minimum execute
            else
              let (p, number) := operation p token lhs rhs
              climb fuel p { number } minimum execute
          else climb fuel p {} minimum execute
    else some (p, left)

end

/-- `run`: the class, the value it stores and the parser at the end. -/
def run (fuel : ℕ) (p : Parser F) (execute : Bool) : Option (Parser F × ℤ) := do
  let p := nextToken p
  let (p, result) ← if p.token ≠ .eot then expression fuel p 1 execute else some (p, {})
  let p := if p.error = .ok ∧ p.token ≠ .eot then { p with error := .syntaxError } else p
  if p.error = .ok then some (readValue p result execute) else some (p, 0)

/-- Fuel for a text: three nested calls for each byte left. -/
def enoughFuel (text : Bytes) : ℕ := 3 * text.length + 6

/-- The outcome of `csh_arith_eval`: the result class, `*out` when it was
written, and the state. -/
structure Outcome (F : Type) where
  result : ArithResult
  out : Option ℤ
  state : State F

/-- `csh_arith_eval`. -/
def arithEval (state : State F) (text : Bytes) : Outcome F :=
  match state.save with
  | none => ⟨.nomem, none, state⟩
  | some checkpoint =>
    let p : Parser F := { next := text, state, options := state.info.options }
    match run (enoughFuel text) p true with
    | none => ⟨.resource, none, state.restore checkpoint⟩
    | some (p, number) =>
      if p.error = .ok then ⟨.ok, some number, p.state⟩
      else ⟨p.error, none, p.state.restore checkpoint⟩

/-- `csh_arith_probe`. -/
def arithProbe (text : Bytes) : ArithResult :=
  let p : Parser Unit := { next := text, state := {} }
  match run (enoughFuel text) p false with
  | none => .resource
  | some (p, _) => p.error

/-- `csh_arith_probe_prefix`: may the text be continued to an expression?  `none`
is a full stack. -/
def arithProbePrefix (text : Bytes) : Option Bool :=
  let p : Parser Unit := { next := text, state := {} }
  match run (enoughFuel text) p false with
  | none => none
  | some (p, _) => some (p.error = .ok || p.incomplete)

end Arithmetic
end CShell
