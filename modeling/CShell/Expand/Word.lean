import CShell.Arithmetic.Model
import CShell.Expand.Fields
import CShell.Expand.Quote

/-!
# Word expansion

`expand.c`: a structured word is checked once by `prepare`, and `range` then walks
the fragments of one parent, calling itself for quoted regions and operands.
Assignments (`${x=w}`, arithmetic) go straight to the live state; a failure
anywhere puts the state back to the checkpoint `csh_expand_word` took.

The nesting of `range` is bounded by the native stack, whose size is a parameter:
`csh_stack_check` fails once `stack` levels are in use.  Command substitution is
the executor's callback; it returns bytes and does not touch the state.

## Main definitions

* `Expand.prepare` — validation, and the cached subtree ends.
* `Expand.range`, `Expand.parameter`, `Expand.arithmetic`, … — the walk.
* `expandWord` — `csh_expand_word`.

## References

`src/expand.c`.
-/

namespace CShell

open Arithmetic (arithEval decimal ArithResult)

/-- `struct csh_expand_options`.  The callback is given the error record to fill
in; it returns its result, the bytes and the record. -/
structure ExpandOptions (F : Type) where
  context : ExpandContext := .argument
  substitute : Option (State F → Token → ℕ → ExpandError → ExpandResult × Bytes × ExpandError) :=
    none

namespace Expand

variable {F : Type}

/-- The part of `struct expansion_work` that changes. -/
structure Work (F : Type) where
  state : State F
  error : ExpandError := {}

/-- What a step of the expansion returns: its result, the live state with the
error record, and the expansion it was adding to. -/
structure Reply (F : Type) where
  result : ExpandResult
  work : Work F
  out : Expansion

/-- Go on unless a step failed. -/
def Reply.andThen (r : Reply F) (f : Work F → Expansion → Reply F) : Reply F :=
  if r.result = .ok then f r.work r.out else r

/-- `fail`. -/
def Work.fail (work : Work F) (word : Token) (code : ExpandResult) (fragment : Option ℕ)
    (message : Bytes) : Work F :=
  let position := ((fragment.bind fun i => word.fragments[i]?).map Fragment.start).getD word.start
  { work with error := { code, fragment, position, message := message.take 255 } }

/-- Report a failure that has not been reported closer to its cause. -/
def Work.failUnreported (work : Work F) (word : Token) (code : ExpandResult) (fragment : Option ℕ)
    (message : Bytes) : Work F :=
  if work.error.code = .ok then work.fail word code fragment message else work

/-! ### Building the expansion -/

/-- `new_field`. -/
def newField (out : Expansion) : Expansion := { out with fields := out.fields ++ [[]] }

/-- `append`: a span at the end of the last field, which is made if there is none. -/
def append (out : Expansion) (bytes : Bytes) (quote : Quote) (origin : ExpandOrigin)
    (keep : Bool) : Expansion :=
  let fields := if out.fields.isEmpty then [[]] else out.fields
  let span : Span :=
    { text := bytes, quote, origin, keepEmpty := keep,
      split := out.context == .argument && quote == .none && origin != .literal &&
        origin != .tilde }
  { out with fields := fields.dropLast ++ [fields.getLastD [] ++ [span]] }

/-- `scalar`. -/
def scalar (out : Expansion) (text : Bytes) (quote : Quote) (origin : ExpandOrigin) : Expansion :=
  append out text quote origin (quote != .none)

/-- `flatten`. -/
def flatten (value : Expansion) : Bytes :=
  value.fields.flatMap fun field => field.flatMap Span.text

/-- `separator`. -/
def separator (env : ExpandEnv) (s : State F) : Bytes :=
  match (s.getVariable (ascii "IFS")).2.value with
  | none => ascii " "
  | some [] => []
  | some value => value.take (env.current.characterBytes value)

/-- `positional`. -/
def positional (env : ExpandEnv) (s : State F) (out : Expansion) (star : Bool) (quote : Quote) :
    Expansion :=
  let arguments := (List.range s.info.argumentCount).map fun i => (s.parameter (i + 1)).getD []
  if out.context != .argument || (star && quote != .none) then
    let out := scalar out [] quote .parameter
    arguments.zipIdx.foldl (fun out (text, i) =>
      let out :=
        if i = 0 then out else append out (separator env s) quote .parameter (quote != .none)
      scalar out text quote .parameter) out
  else
    arguments.zipIdx.foldl (fun out (text, i) =>
      scalar (if i = 0 then out else newField out) text quote .parameter) out

/-! ### Reading a spelling -/

/-- Skip backslash-newline pairs. -/
def skipContinuations (raw : Bytes) (pos stop : ℕ) : ℕ :=
  if pos + 1 < stop ∧ raw[pos]? = some (byteOf '\\') ∧ raw[pos + 1]? = some (byteOf '\n') then
    skipContinuations raw (pos + 2) stop
  else pos
termination_by stop - pos

/-- `logical`: the next byte of the spelling without its continuations, and the
position behind it. -/
def logical (raw : Bytes) (pos stop : ℕ) : Option UInt8 × ℕ :=
  let pos := skipContinuations raw pos stop
  if pos < stop then (raw[pos]?, pos + 1) else (none, pos)

theorem le_skipContinuations (raw : Bytes) (pos stop : ℕ) :
    pos ≤ skipContinuations raw pos stop := by
  fun_induction skipContinuations raw pos stop with
  | case1 pos h ih => omega
  | case2 pos h => exact Nat.le_refl _

/-- A byte that was read lies before the end. -/
theorem logical_lt {raw : Bytes} {pos stop : ℕ} {byte : UInt8}
    (h : (logical raw pos stop).1 = some byte) :
    pos < (logical raw pos stop).2 ∧ (logical raw pos stop).2 ≤ stop := by
  have hle := le_skipContinuations raw pos stop
  simp only [logical] at h ⊢
  split at h
  · rename_i hlt
    rw [if_pos hlt]
    exact ⟨Nat.lt_succ_of_le hle, hlt⟩
  · cases h

/-- The single-byte parameters. -/
def specialParameter (byte : UInt8) : Bool := (ascii "@*#?$!-").contains byte

/-- The bytes of a name from `pos` on that satisfy `accepts`, and the position of
the first that does not. -/
def nameBytes (accepts : UInt8 → Bool) (raw : Bytes) (pos stop : ℕ) : Bytes × ℕ :=
  match h : (logical raw pos stop).1 with
  | some byte =>
    if accepts byte then
      let rest := nameBytes accepts raw (logical raw pos stop).2 stop
      (byte :: rest.1, rest.2)
    else ([], pos)
  | none => ([], pos)
termination_by stop - pos
decreasing_by
  have := logical_lt h
  omega

/-- `length_parameter`: the rest of the braces is one parameter, so that `#`
asks for its length. -/
def lengthParameter (raw : Bytes) (pos stop : ℕ) : Bool :=
  match logical raw pos stop with
  | (some byte, pos) =>
    if nameStart byte then (logical raw (nameBytes nameByte raw pos stop).2 stop).1.isNone
    else if digit byte then (logical raw (nameBytes digit raw pos stop).2 stop).1.isNone
    else specialParameter byte && (logical raw pos stop).1.isNone
  | (none, _) => false

/-- `empty_operand`. -/
def emptyOperand (raw : Bytes) (pos stop : ℕ) : Bool := (logical raw pos stop).1.isNone

/-- What `parameter` reads before it expands anything. -/
structure Header where
  name : Bytes
  lengthOp : Bool
  colon : Bool
  op : Option UInt8
  longest : Bool
  /-- Where the operand begins, and where it ends. -/
  operand : ℕ
  stop : ℕ
  deriving DecidableEq, Repr

/-- The name of a parameter whose first byte was read up to `pos`. -/
def parameterName (raw : Bytes) (byte : UInt8) (braced : Bool) (pos stop : ℕ) :
    Option (Bytes × ℕ) :=
  if nameStart byte then
    let rest := nameBytes nameByte raw pos stop
    some (byte :: rest.1, rest.2)
  else if digit byte then
    if braced then
      let rest := nameBytes digit raw pos stop
      some (byte :: rest.1, rest.2)
    else some ([byte], pos)
  else if specialParameter byte then some ([byte], pos)
  else none

/-- The operator behind a name in braces; `none` is a malformed one. -/
def parameterOperator (raw : Bytes) (first : UInt8) (pos stop : ℕ) :
    Option (Bool × UInt8 × Bool × ℕ) :=
  let colon := first == byteOf ':'
  let next := if colon then logical raw pos stop else (some first, pos)
  match next with
  | (none, _) => none
  | (some op, pos) =>
    if !(ascii "-+=?#%").contains op || (colon && (op == byteOf '#' || op == byteOf '%')) then none
    else if op == byteOf '#' || op == byteOf '%' then
      match logical raw pos stop with
      | (some byte, after) =>
        if byte == op then some (colon, op, true, after) else some (colon, op, false, pos)
      | (none, _) => some (colon, op, false, pos)
    else some (colon, op, false, pos)

/-- The first half of `parameter`: name, operator and operand of a fragment. -/
def parameterHeader (raw : Bytes) (begin stop : ℕ) : Except ExpandResult Header := do
  let dollar := (logical raw begin stop).2
  let (first, pos) := logical raw dollar stop
  let braced := first == some (byteOf '{')
  let stop := if braced then stop - 1 else stop
  let save := if braced then pos else dollar
  let (first, pos) := if braced then logical raw pos stop else (first, pos)
  let lengthOp := braced && first == some (byteOf '#') && lengthParameter raw pos stop
  let save := if lengthOp then pos else save
  let (first, pos) := if lengthOp then logical raw pos stop else (first, pos)
  if stop < save then throw .nomem
  let some first := first | throw .invalid
  let some (name, pos) := parameterName raw first braced pos stop | throw .invalid
  match logical raw pos stop with
  | (none, pos) => pure ⟨name, lengthOp, false, none, false, pos, stop⟩
  | (some byte, pos) =>
    if !braced || lengthOp then throw .invalid
    let some (colon, op, longest, operand) := parameterOperator raw byte pos stop
      | throw .invalid
    pure ⟨name, lengthOp, colon, some op, longest, operand, stop⟩

/-! ### Parameter values -/

/-- The option letters of `$-`, in the order of `CSH_OPTION_LIST`. -/
def optionLetters : List (UInt32 × Char) :=
  [(Opt.allexport, 'a'), (Opt.notify, 'b'), (Opt.noclobber, 'C'), (Opt.errexit, 'e'),
    (Opt.noglob, 'f'), (Opt.hashall, 'h'), (Opt.monitor, 'm'), (Opt.noexec, 'n'),
    (Opt.nounset, 'u'), (Opt.verbose, 'v'), (Opt.xtrace, 'x'), (Opt.interactive, 'i')]

/-- The value of a digit string as an index, unless it overflows `size_t`. -/
def parameterIndex (digits : Bytes) : Option ℕ :=
  digits.foldlM (fun index byte =>
    let d := byte.toNat - '0'.toNat
    if (2 ^ 64 - 1 - d) / 10 < index then none else some (index * 10 + d)) 0

/-- `parameter_value`: the value, `none` if unset. -/
def parameterValue (s : State F) (name : Bytes) : Except ExpandResult (Option Bytes) :=
  match name with
  | [] => .error .invalid
  | first :: _ =>
    if nameStart first then
      match s.getVariable name with
      | (.ok, view) => .ok view.value
      | _ => .error .invalid
    else if digit first then
      match parameterIndex name with
      | some index => .ok (s.parameter index)
      | none => .error .invalid
    else if first == byteOf '#' then .ok (some (decimal s.info.argumentCount))
    else if first == byteOf '?' then .ok (some (decimal s.info.lastStatus))
    else if first == byteOf '$' then .ok (some (decimal s.info.shellPid))
    else if first == byteOf '!' then
      .ok (if s.info.backgroundPid = 0 then none else some (decimal s.info.backgroundPid))
    else if first == byteOf '-' then
      .ok (some ((optionLetters.filter fun o => hasBit s.info.options o.1).map fun o => byteOf o.2))
    else .error .invalid

/-- `assign`. -/
def assign (s : State F) (name value : Bytes) : ExpandResult × State F :=
  match s.setVariable name value with
  | (.ok, s) =>
    if hasBit s.info.options Opt.allexport then
      match s.updateAttributes name Attr.exported 0 with
      | (.ok, s) => (.ok, s)
      | (_, s) => (.nomem, s)
    else (.ok, s)
  | (.readonly, s) => (.readonly, s)
  | (.nomem, s) => (.nomem, s)
  | (_, s) => (.invalid, s)

/-- The loop of `remove_pattern` from `offset` on: the offset selected, starting
from the selection so far. -/
def selectOffset (d : Decoder) (accepts : ℕ → Bool) (first : Bool) (value : Bytes) (offset : ℕ)
    (selected : Option ℕ) : Option ℕ :=
  let selected := if accepts offset then some offset else selected
  if accepts offset && first then selected
  else if h : offset < value.length then
    selectOffset d accepts first value (offset + d.characterBytes (value.drop offset)) selected
  else selected
termination_by value.length - offset
decreasing_by
  have := d.characterBytes_pos (value.drop offset)
  omega

/-- `remove_pattern`. -/
def removePattern (env : ExpandEnv) (value pattern : Bytes) (suffix longest : Bool) : Bytes :=
  let accepts := fun offset =>
    env.fs.fnmatch pattern (if suffix then value.drop offset else value.take offset) false
  match selectOffset env.current accepts (suffix == longest) value 0 none with
  | none => value
  | some offset => if suffix then value.take offset else value.drop offset

/-- The characters of a value. -/
def characterCount (d : Decoder) (value : Bytes) : ℕ :=
  match value with
  | [] => 0
  | byte :: rest => characterCount d (rest.drop (d.characterBytes (byte :: rest) - 1)) + 1
termination_by value.length
decreasing_by simp only [List.length_drop, List.length_cons]; omega

/-! ### Validation -/

/-- The bytes of a spelling from `begin` to `stop`. -/
def slice (raw : Bytes) (begin stop : ℕ) : Bytes := (raw.drop begin).take (stop - begin)

/-- Skip backslash-newline pairs backwards from `stop`. -/
def trimContinuations (raw : Bytes) (begin stop : ℕ) : ℕ :=
  if 2 ≤ stop - begin ∧ raw[stop - 2]? = some (byteOf '\\') ∧ raw[stop - 1]? = some (byteOf '\n') then
    trimContinuations raw begin (stop - 2)
  else stop
termination_by stop

/-- `trim_delimiters`: the end before `count` closing parentheses; `none` is
`SIZE_MAX`. -/
def trimDelimiters (raw : Bytes) (begin : ℕ) : ℕ → ℕ → Option ℕ
  | stop, 0 => some stop
  | stop, count + 1 =>
    if stop ≤ begin || raw[stop - 1]? != some (byteOf ')') then none
    else trimDelimiters raw begin (trimContinuations raw begin (stop - 1)) count

/-- `fragment_syntax`. -/
def fragmentSyntax (lexical : Decoder) (raw : Bytes) (f : Fragment) : Bool :=
  let first := logical raw f.begin f.stop
  let second := logical raw first.2 f.stop
  let last := raw[f.stop - 1]?
  match f.kind with
  | .text => true
  | .continuation =>
    f.stop - f.begin == 2 && raw[f.begin]? == some (byteOf '\\') &&
      raw[f.begin + 1]? == some (byteOf '\n')
  | .escape =>
    2 ≤ f.stop - f.begin && raw[f.begin]? == some (byteOf '\\') &&
      lexical.characterLength (slice raw (f.begin + 1) f.stop) true == f.stop - f.begin - 1
  | .quoted =>
    match f.quote with
    | .dollarSingle =>
      first.1 == some (byteOf '$') && second.1 == some (byteOf '\'') && second.2 < f.stop &&
        last == some (byteOf '\'')
    | .single => raw[f.begin]? == some (byteOf '\'') && last == some (byteOf '\'')
    | .double => raw[f.begin]? == some (byteOf '"') && last == some (byteOf '"')
    | .none => false
  | .backquote => raw[f.begin]? == some (byteOf '\x60') && last == some (byteOf '\x60')
  | .parameter =>
    first.1 == some (byteOf '$') &&
      match second.1 with
      | none => false
      | some byte =>
        if byte == byteOf '{' then second.2 < f.stop && last == some (byteOf '}')
        else nameByte byte || specialParameter byte
  | .command =>
    first.1 == some (byteOf '$') && second.1 == some (byteOf '(') && second.2 < f.stop &&
      last == some (byteOf ')')
  | .arithmetic =>
    match trimDelimiters raw f.begin f.stop 2 with
    | none => false
    | some stop =>
      let first := logical raw f.begin stop
      let second := logical raw first.2 stop
      first.1 == some (byteOf '$') && second.1 == some (byteOf '(') &&
        (logical raw second.2 stop).1 == some (byteOf '(')

/-- `command_continuation`: a continuation between the `$` and the `(` of its
parent. -/
def commandContinuation (raw : Bytes) (parent child : Fragment) : Bool :=
  let first := logical raw parent.begin parent.stop
  let second := logical raw first.2 parent.stop
  child.kind == .continuation && first.1 == some (byteOf '$') && second.1 == some (byteOf '(') &&
    child.stop ≤ second.2

/-- The loop variables of `prepare`: the open fragments, innermost first, the
earliest place the next fragment may begin, and the subtree ends. -/
structure Nesting where
  stack : List ℕ := []
  previous : ℕ := 0
  next : ℕ → ℕ := fun _ => 0

/-- Close the fragments that do not contain the fragment at index `i`. -/
def Nesting.close (word : Token) (i : ℕ) (parent : Option ℕ) : List ℕ → ℕ → (ℕ → ℕ) → Nesting
  | [], previous, next => ⟨[], previous, next⟩
  | top :: stack, previous, next =>
    if parent = some top then ⟨top :: stack, previous, next⟩
    else
      Nesting.close word i parent stack ((word.fragments[top]?.map Fragment.stop).getD 0)
        fun j => if j = top then i else next j

/-- The structural checks of `prepare` on one fragment, under its parent. -/
def structured (word : Token) (f : Fragment) (parent : Option Fragment) (previous : ℕ) : Bool :=
  (match parent with
    | none => f.parent.isNone
    | some p => p.begin ≤ f.begin && f.stop ≤ p.stop) &&
    previous ≤ f.begin && f.begin ≤ f.stop && f.stop ≤ word.raw.length &&
    (f.kind == .text || 2 ≤ f.stop - f.begin) &&
    (f.kind != .arithmetic || 5 ≤ f.stop - f.begin)

/-- The checks of `prepare` on the spelling of one fragment and the kind of its
parent. -/
def spelled (lexical : Decoder) (word : Token) (f : Fragment) (parent : Option Fragment) : Bool :=
  fragmentSyntax lexical word.raw f &&
    match parent with
    | none => true
    | some p =>
      p.kind != .text && p.kind != .escape && p.kind != .continuation &&
        (p.kind != .command || commandContinuation word.raw p f)

/-- The first loop of `prepare`; an error names the fragment and the message. -/
def prepareLoop (lexical : Decoder) (word : Token) :
    List Fragment → ℕ → Nesting → Except (ℕ × Bytes) Nesting
  | [], _, nesting => .ok nesting
  | f :: rest, i, nesting =>
    let nesting := Nesting.close word i f.parent nesting.stack nesting.previous nesting.next
    let parent := nesting.stack.head?.bind fun top => word.fragments[top]?
    if !structured word f parent nesting.previous then .error (i, ascii "invalid structured word")
    else if !spelled lexical word f parent then .error (i, ascii "invalid fragment syntax")
    else
      prepareLoop lexical word rest (i + 1)
        { nesting with stack := i :: nesting.stack, previous := f.begin }

/-- The decoded value of a dollar-single-quoted fragment. -/
def decodeFragment (env : ExpandEnv) (word : Token) (f : Fragment) : Except Bytes Bytes :=
  let dollar := logical word.raw f.begin f.stop
  let quote := logical word.raw dollar.2 f.stop
  if dollar.1 != some (byteOf '$') || quote.1 != some (byteOf '\'') || f.stop ≤ quote.2 ||
      word.raw[f.stop - 1]? != some (byteOf '\'') then
    .error (ascii "invalid dollar-single-quote region")
  else
    match quoteDecode env.lexical env.current (slice word.raw quote.2 (f.stop - 1)) with
    | none => .error (ascii "dollar-single-quote decoding failed")
    | some text => .ok text

/-- The second loop of `prepare`. -/
def decodeLoop (env : ExpandEnv) (word : Token) :
    List Fragment → ℕ → (ℕ → Bytes) → Except (ℕ × Bytes) (ℕ → Bytes)
  | [], _, decoded => .ok decoded
  | f :: rest, i, decoded =>
    if f.kind = .quoted && f.quote = .dollarSingle then
      match decodeFragment env word f with
      | .error message => .error (i, message)
      | .ok text => decodeLoop env word rest (i + 1) fun j => if j = i then text else decoded j
    else decodeLoop env word rest (i + 1) decoded

/-- What `prepare` leaves in `struct expansion_work`. -/
structure Prepared where
  next : ℕ → ℕ
  decoded : ℕ → Bytes

/-- `prepare`; an error is the reply's result with the report, if one was made. -/
def prepare (env : ExpandEnv) (word : Token) : Except (Option (ℕ × Bytes)) Prepared :=
  if word.kind != .word || word.raw.contains 0 then .error none
  else
    match prepareLoop env.lexical word word.fragments 0 {} with
    | .error report => .error (some report)
    | .ok nesting =>
      let count := word.fragments.length
      let next := fun j => if j ∈ nesting.stack then count else nesting.next j
      match decodeLoop env word word.fragments 0 fun _ => [] with
      | .error report => .error (some report)
      | .ok decoded => .ok ⟨next, decoded⟩

/-! ### The walk over the fragments -/

/-- The `tilde` argument of `range`: 0, 1 and 3. -/
inductive Tilde
  | off
  | word
  | assignment
  deriving DecidableEq, Repr

/-- Follow the subtree ends from index `i` while it is below `limit`. -/
def siblingsFrom (next : ℕ → ℕ) (limit : ℕ) : ℕ → ℕ → List ℕ
  | 0, _ => []
  | steps + 1, i => if i < limit then i :: siblingsFrom next limit steps (next i) else []

/-- The fragments directly below a parent. -/
def children (word : Token) (next : ℕ → ℕ) (parent : Option ℕ) : List ℕ :=
  let first := (parent.map (· + 1)).getD 0
  let limit := (parent.map next).getD word.fragments.length
  siblingsFrom next limit (limit - first) first

section Walk

variable (env : ExpandEnv) (word : Token) (prepared : Prepared)

/-- `plain_at`. -/
def plainAt (parent : Option ℕ) (pos : ℕ) : Bool :=
  let covering := (children word prepared.next parent).filterMap fun i =>
    word.fragments[i]?.filter fun f => f.begin ≤ pos && pos < f.stop
  match covering.head? with
  | none => false
  | some f =>
    f.parent == parent && f.quote == .none && (f.kind == .text || f.kind == .continuation)

/-- The login name of a tilde-prefix from `pos` on, and where it ends; `none` when
quoting or an expansion interrupts it. -/
def tildeName (parent : Option ℕ) (tilde : Tilde) (pos stop : ℕ) : Option (Bytes × ℕ) :=
  if hpos : pos < stop then
    if !plainAt word prepared parent pos then none
    else
      let byte := word.raw[pos]?
      if byte == some (byteOf '/') || (tilde == .assignment && byte == some (byteOf ':')) then
        some ([], pos)
      else if pos + 1 < stop && byte == some (byteOf '\\') &&
          word.raw[pos + 1]? == some (byteOf '\n') then
        tildeName parent tilde (pos + 2) stop
      else
        let width := env.lexical.characterLength (slice word.raw pos stop) true
        if hwidth : 0 < width then
          (tildeName parent tilde (pos + width) stop).map fun rest =>
            (slice word.raw pos (pos + width) ++ rest.1, rest.2)
        else none
  else some ([], pos)
termination_by stop - pos
decreasing_by
  all_goals omega

/-- `tilde_prefix`: the expansion, and the position behind the prefix, which is
`begin` if there was nothing to expand. -/
def tildePrefix (s : State F) (parent : Option ℕ) (tilde : Tilde) (begin stop : ℕ)
    (out : Expansion) : Expansion × ℕ :=
  match tildeName env word prepared parent tilde (begin + 1) stop with
  | none => (out, begin)
  | some (name, pos) =>
    let home :=
      if name.isEmpty then (s.getVariable (ascii "HOME")).2.value else env.getpwnam name
    match home with
    | none => (out, begin)
    | some home =>
      let trimmed :=
        if home.getLast? == some (byteOf '/') && pos < stop && word.raw[pos]? == some (byteOf '/')
        then home.dropLast else home
      (append out trimmed .single .tilde true, pos)

/-- Append the text of a fragment that was read but not yet appended. -/
def flushText (f : Fragment) (origin : ExpandOrigin) (run p : ℕ) (out : Expansion) : Expansion :=
  if run < p then append out (slice word.raw run p) f.quote origin (f.quote != .none) else out

/-- The loop of `range` over one text fragment: `run` is where the text not yet
appended begins. -/
def textLoop (s : State F) (parent : Option ℕ) (tilde : Tilde) (f : Fragment)
    (origin : ExpandOrigin) (stop rangeStop p run : ℕ) (tildeOk : Bool) (out : Expansion) :
    Expansion × ℕ × ℕ × Bool :=
  if hp : p < stop then
    if tildeOk && f.quote == .none && word.raw[p]? == some (byteOf '~') then
      match tildePrefix env word prepared s parent tilde p rangeStop
          (flushText word f origin run p out) with
      | (out, after) =>
        if hafter : p < after then
          textLoop s parent tilde f origin stop rangeStop after after false out
        else
          -- not a tilde-prefix: the tilde is ordinary text, and no colon
          let width := env.lexical.characterLength (slice word.raw p stop) true
          textLoop s parent tilde f origin stop rangeStop (p + max 1 width) p false out
    else
      let tildeOk :=
        tilde == .assignment && f.quote == .none && word.raw[p]? == some (byteOf ':')
      let width := env.lexical.characterLength (slice word.raw p stop) true
      textLoop s parent tilde f origin stop rangeStop (p + max 1 width) run tildeOk out
  else (out, p, run, tildeOk)
termination_by stop - p
decreasing_by
  all_goals omega

/-- The recursive calls of `range`, by parent, bounds, origin of literal text and
tilde mode. -/
abbrev Ranger (F : Type) :=
  Option ℕ → ℕ → ℕ → ExpandOrigin → Tilde → Work F → Expansion → Reply F

/-- The branch of `parameter` that removes a prefix or suffix. -/
def parameterRemove (ranger : Ranger F) (index : ℕ) (f : Fragment) (h : Header) (op : UInt8)
    (value : Bytes) (work : Work F) (out : Expansion) : Reply F :=
  let r := ranger (some index) h.operand h.stop .parameter .word work { context := .pattern }
  if r.result ≠ .ok then { r with out }
  else
    let (result, patterns, error) := expandFields env r.work.state r.out
    let work := { r.work with error }
    if result ≠ .ok then ⟨result, work, out⟩
    else
      match patterns.fields with
      | [] =>
        ⟨.ok, work, scalar out (removePattern env value [] (op == byteOf '%') h.longest) f.quote
          .parameter⟩
      | [pattern] =>
        ⟨.ok, work, scalar out (removePattern env value pattern (op == byteOf '%') h.longest)
          f.quote .parameter⟩
      | _ => ⟨.invalid, work, out⟩

/-- The branches of `parameter` for `-`, `+`, `=` and `?`. -/
def parameterDefault (ranger : Ranger F) (index : ℕ) (f : Fragment) (h : Header) (op : UInt8)
    (value : Option Bytes) (work : Work F) (out : Expansion) : Reply F :=
  let unusable := value.isNone || (h.colon && value == some [])
  let useWord := if op == byteOf '+' then !unusable else unusable
  if !useWord then
    ⟨.ok, work, scalar out (if op == byteOf '+' then [] else value.getD []) f.quote .parameter⟩
  else if op == byteOf '-' || op == byteOf '+' then
    if emptyOperand word.raw h.operand h.stop then ⟨.ok, work, scalar out [] f.quote .parameter⟩
    else ranger (some index) h.operand h.stop .parameter .word work out
  else
    let r := ranger (some index) h.operand h.stop .parameter .word work { context := .assignment }
    if r.result ≠ .ok then { r with out }
    else
      let text := flatten r.out
      if op == byteOf '?' then
        let message := if h.operand = h.stop then ascii "parameter is unset or empty" else text
        ⟨.unset, r.work.fail word .unset (some index) message, out⟩
      else
        let (result, state) := assign r.work.state h.name text
        let work := { r.work with state }
        if result = .ok then ⟨.ok, work, scalar out text f.quote .parameter⟩
        else ⟨result, work, out⟩

/-- The second half of `parameter`. -/
def parameterBody (ranger : Ranger F) (index : ℕ) (f : Fragment) (h : Header) (work : Work F)
    (out : Expansion) : Reply F :=
  if h.name == ascii "@" || h.name == ascii "*" then
    if h.lengthOp || h.op.isSome then ⟨.invalid, work, out⟩
    else ⟨.ok, work, positional env work.state out (h.name == ascii "*") f.quote⟩
  else
    match parameterValue work.state h.name with
    | .error code => ⟨code, work, out⟩
    | .ok value =>
      let removes := h.op == some (byteOf '#') || h.op == some (byteOf '%')
      if value.isNone && hasBit work.state.info.options Opt.nounset &&
          (h.lengthOp || h.op.isNone || removes) then
        ⟨.unset, work.fail word .unset (some index) h.name, out⟩
      else if h.lengthOp then
        ⟨.ok, work, scalar out (decimal (characterCount env.current (value.getD []))) f.quote
          .parameter⟩
      else
        match h.op with
        | none => ⟨.ok, work, scalar out (value.getD []) f.quote .parameter⟩
        | some op =>
          if removes then parameterRemove env ranger index f h op (value.getD []) work out
          else parameterDefault word ranger index f h op value work out

/-- Name the fragment and the step in a failure nobody reported yet. -/
def Reply.reported (r : Reply F) (index : ℕ) (message : String) : Reply F :=
  if r.result = .ok then r
  else { r with work := r.work.failUnreported word r.result (some index) (ascii message) }

/-- `parameter`. -/
def parameter (ranger : Ranger F) (index : ℕ) (f : Fragment) (work : Work F) (out : Expansion) :
    Reply F :=
  let r :=
    match parameterHeader word.raw f.begin f.stop with
    | .error code => ⟨code, work, out⟩
    | .ok h => parameterBody env word ranger index f h work out
  Reply.reported word r index "parameter expansion failed"

/-- The result of an arithmetic expansion whose evaluation failed. -/
def arithmeticFailure : ArithResult → ExpandResult
  | .nomem => .nomem
  | .readonly => .readonly
  | _ => .arithmeticError

/-- `arithmetic`. -/
def arithmetic (ranger : Ranger F) (index : ℕ) (f : Fragment) (work : Work F) (out : Expansion) :
    Reply F :=
  match trimDelimiters word.raw f.begin f.stop 2 with
  | none => ⟨.invalid, work, out⟩
  | some stop =>
    let begin := (logical word.raw (logical word.raw (logical word.raw f.begin stop).2 stop).2 stop).2
    let r := ranger (some index) begin stop .literal .off work { context := .assignment }
    let r : Reply F :=
      if r.result ≠ .ok then { r with out }
      else
        let value := arithEval r.work.state (flatten r.out)
        let work := { r.work with state := value.state }
        match value.result with
        | .ok => ⟨.ok, work, scalar out (decimal (value.out.getD 0)) f.quote .arithmetic⟩
        | .resource =>
          ⟨.resource, work.fail word .resource (some index) (ascii "arithmetic stack exhausted"), out⟩
        | failed => ⟨arithmeticFailure failed, work, out⟩
    Reply.reported word r index "arithmetic expansion failed"

/-- `substitution`. -/
def substitution (options : ExpandOptions F) (index : ℕ) (f : Fragment) (work : Work F)
    (out : Expansion) : Reply F :=
  match options.substitute with
  | none =>
    ⟨.deferred, work.fail word .deferred (some index)
      (ascii "command substitution requires an executor"), out⟩
  | some substitute =>
    let (result, bytes, error) := substitute work.state word index work.error
    let work := { work with error }
    if result ≠ .ok then ⟨result, work, out⟩
    else if bytes.contains 0 then
      ⟨.invalid, work.fail word .invalid (some index) (ascii "invalid command substitution bytes"),
        out⟩
    else ⟨.ok, work, append out bytes f.quote .substitution (f.quote != .none)⟩

/-- A quoted region: its children, or an empty value if it has none but
continuations. -/
def quotedRegion (ranger : Ranger F) (index : ℕ) (f : Fragment) (origin : ExpandOrigin)
    (work : Work F) (out : Expansion) : Reply F :=
  if f.quote = .dollarSingle then
    ⟨.ok, work, scalar out (prepared.decoded index) f.quote origin⟩
  else
    let content := (children word prepared.next (some index)).any fun child =>
      (word.fragments[child]?.map Fragment.kind) != some .continuation
    if content then ranger (some index) (f.begin + 1) (f.stop - 1) origin .off work out
    else ⟨.ok, work, scalar out [] f.quote origin⟩

/-- The `switch` of `range` on a whole fragment that is neither text nor a
continuation. -/
def wholeFragment (options : ExpandOptions F) (ranger : Ranger F) (index : ℕ) (f : Fragment)
    (origin : ExpandOrigin) (work : Work F) (out : Expansion) : Reply F :=
  match f.kind with
  | .quoted => quotedRegion word prepared ranger index f origin work out
  | .escape => ⟨.ok, work, append out (slice word.raw (f.begin + 1) f.stop) .single origin true⟩
  | .parameter => parameter env word ranger index f work out
  | .arithmetic => arithmetic word ranger index f work out
  | .command | .backquote => substitution word options index f work out
  | .text | .continuation => ⟨.invalid, work, out⟩

/-- The loop of `range` over sibling fragments, from a cursor on. -/
def rangeLoop (options : ExpandOptions F) (ranger : Ranger F) (parent : Option ℕ) (stop : ℕ)
    (origin : ExpandOrigin) (tilde : Tilde) :
    List ℕ → ℕ → Bool → Work F → Expansion → Reply F
  | [], _, _, work, out => ⟨.ok, work, out⟩
  | i :: rest, cursor, tildeOk, work, out =>
    match word.fragments[i]? with
    | none => ⟨.ok, work, out⟩
    | some f =>
      if f.stop ≤ cursor || stop ≤ f.begin then
        rangeLoop options ranger parent stop origin tilde rest cursor tildeOk work out
      else
        let start := max cursor f.begin
        let fstop := min f.stop stop
        match f.kind with
        | .text =>
          let (out, p, run, tildeOk) :=
            textLoop env word prepared work.state parent tilde f origin fstop stop start start
              tildeOk out
          rangeLoop options ranger parent stop origin tilde rest (max p fstop) tildeOk work
            (flushText word f origin run fstop out)
        | .continuation =>
          rangeLoop options ranger parent stop origin tilde rest fstop tildeOk work out
        | _ =>
          if start ≠ f.begin || fstop ≠ f.stop then
            ⟨.invalid, work.fail word .invalid (some i) (ascii "partial expansion fragment"), out⟩
          else
            (wholeFragment env word prepared options ranger i f origin work out).andThen
              fun work out =>
                rangeLoop options ranger parent stop origin tilde rest fstop false work out

/-- `range`, with `stack` levels of nesting left. -/
def range (options : ExpandOptions F) : ℕ → Ranger F
  | 0, parent, _, _, _, _, work, out =>
    ⟨.resource, work.fail word .resource parent (ascii "expansion stack exhausted"), out⟩
  | stack + 1, parent, begin, stop, origin, tilde, work, out =>
    rangeLoop env word prepared options (range options stack) parent stop origin tilde
      (children word prepared.next parent) begin (tilde != .off) work out

end Walk

end Expand

open Expand

variable {F : Type}

/-- What `csh_expand_word` returns: the result, the state, `*out` and `*error`. -/
structure WordOutcome (F : Type) where
  result : ExpandResult
  state : State F
  out : Expansion
  error : ExpandError

/-- The tilde mode at the top of a word. -/
def rootTilde : ExpandContext → Tilde
  | .heredoc => .off
  | .assignment => .assignment
  | _ => .word

/-- `csh_expand_word`, with room for `stack` nested ranges. -/
def expandWord (env : ExpandEnv) (stack : ℕ) (s : State F) (word : Token)
    (options : ExpandOptions F) : WordOutcome F :=
  -- every failure destroys the output and puts the state back, if it was saved
  let failed := fun (r : Reply F) (checkpoint : Option (State F)) =>
    { result := r.result
      state := (checkpoint.map r.work.state.restore).getD r.work.state
      out := ({} : Expansion)
      error := (r.work.failUnreported word r.result none (ascii "word expansion failed")).error }
  let out : Expansion := { context := options.context }
  match prepare env word with
  | .error none => failed ⟨.invalid, { state := s }, out⟩ none
  | .error (some (i, message)) =>
    failed ⟨.invalid, Work.fail { state := s } word .invalid (some i) message, out⟩ none
  | .ok prepared =>
    match s.save with
    | none => failed ⟨.nomem, { state := s }, out⟩ none
    | some checkpoint =>
      let r := range env word prepared options stack none 0 word.raw.length .literal
        (rootTilde options.context) { state := s } out
      if r.result = .ok then ⟨.ok, r.work.state, r.out, r.work.error⟩
      else failed r (some checkpoint)

end CShell
