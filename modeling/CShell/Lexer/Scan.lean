import CShell.Lexer.Machine
import CShell.Arithmetic.Model

/-!
# Scanning tokens

`next_token` is a loop over the tape.  One round of it is `step`, cut here into
the groups of cases the source has: operators, the end of the input, parameter
names, arithmetic candidates, escapes, and the remaining bytes.  `$((` starts a
*candidate*: the tape and the captures are saved, and when the text turns out not
to be an expression the candidate is replayed as `$(` and a subshell.

The interface functions name a lexer by its depth in the chain.

## Main definitions

* `checkpointArithmetic`, `probeArithmetic`, `replayArithmetic` — candidates.
* `step`, `nextToken`, `lexerNext` — the scanner.
* `feed`, `commandBegin`, `commandEnd`, `aliasPush`, `skipRaw` — the interface.

## References

`src/lexer.c`, `include/cshell/lexer.h`.
-/

namespace CShell
namespace Lexical

/-- `strchr(text, byte) != NULL`, which finds the terminator too. -/
def strchr (text : Bytes) (byte : UInt8) : Bool := byte == 0 || text.contains byte

/-- `enum csh_lex_result`; an error is the source's failure. -/
inductive LexResult
  | error
  | eof
  | token (t : Token)
  | more
  | command
  | replay
  deriving DecidableEq, Repr, Inhabited

/-- How a round of `next_token` ends: another round, or a result. -/
inductive Step
  | again (m : Machine)
  | done (result : LexResult) (m : Machine)
  deriving DecidableEq, Repr, Inhabited

/-- Go on after a helper of the scanner, unless it failed. -/
def Step.attempt : Except Machine Machine → Step
  | .ok m => .again m
  | .error m => .done .error m

/-! ### Arithmetic candidates -/

/-- The first loop of `probe_arithmetic`: the body from `at` on, its direct nested
expansions written `@`. -/
def probeBody (raw : Bytes) (fragments : List Fragment) (base : ℕ) (partly : Bool) :
    ℕ → ℕ → ℕ → Bytes
  | 0, _, _ => []
  | fuel + 1, index, pos =>
    if pos < raw.length then
      match fragments[index]? with
      | some f =>
        if f.begin ≤ pos then
          let unfinished := partly && f.stop == f.begin
          if (!unfinished && decide (f.stop ≤ pos)) || f.parent != some base then
            probeBody raw fragments base partly fuel (index + 1) pos
          else match f.kind with
            | .parameter | .command | .arithmetic | .backquote =>
              byteOf '@' :: probeBody raw fragments base partly fuel (index + 1)
                (if unfinished then raw.length else f.stop)
            | .continuation => probeBody raw fragments base partly fuel (index + 1) f.stop
            | .escape =>
              raw.getD (pos + 1) 0 ::
                probeBody raw fragments base partly fuel (index + 1) (pos + 2)
            | .text | .quoted =>
              raw.getD pos 0 :: probeBody raw fragments base partly fuel (index + 1) (pos + 1)
        else raw.getD pos 0 :: probeBody raw fragments base partly fuel index (pos + 1)
      | none => raw.getD pos 0 :: probeBody raw fragments base partly fuel index (pos + 1)
    else []

/-- The second loop of `probe_arithmetic`: a run of name bytes with an expansion
in it is one operand. -/
def probeOperands : Bytes → Bytes → Bytes
  | [], word => if word.contains (byteOf '@') then [byteOf 'x'] else word
  | byte :: rest, word =>
    if nameByte byte || byte == byteOf '@' then probeOperands rest (word ++ [byte])
    else
      (if word.contains (byteOf '@') then [byteOf 'x'] else word) ++
        byte :: probeOperands rest []

/-- The expression `probe_arithmetic` hands to the arithmetic parser. -/
def probeText (l : Lexer) (c : Checkpoint) (partly : Bool) : Bytes :=
  probeOperands
    (probeBody l.raw l.fragments c.fragmentCount partly (l.raw.length + l.fragments.length + 1)
      (c.fragmentCount + 1) c.bodyBegin) []

/-- `probe_arithmetic` before its failure; `none` is an exhausted stack. -/
def probeArithmetic (l : Lexer) (c : Checkpoint) (partly : Bool) : Option Bool :=
  if partly then Arithmetic.arithProbePrefix (probeText l c true)
  else
    match Arithmetic.arithProbe (probeText l c false) with
    | .resource => none
    | result => some (decide (result = .ok))

namespace Machine

/-- `checkpoint_arithmetic`. -/
def checkpointArithmetic (m : Machine) (commandLength : ℕ) (quote : Quote) : Machine :=
  let s := m.source
  let saved : Source :=
    { s with
      data := s.unread, cursor := 0, look := none,
      aliases := s.aliases.map fun a => { a with stop := a.stop - s.cursor } }
  let checkpoint : Checkpoint :=
    { source := saved, fragmentCount := m.lexer.fragments.length,
      frameCount := m.lexer.frames.length, commandLength, quote,
      captures := m.chain.map fun l => (l.raw.length, l.spellingPosition) }
  m.onLexer fun l => { l with arithmetic := checkpoint :: l.arithmetic }

/-- Destroy the lexers below a depth. -/
def unwind (m : Machine) (depth : ℕ) : Machine :=
  match m.chain.drop (m.depth - depth) with
  | l :: rest => { m with lexer := l, parents := rest }
  | [] => m

/-- Truncate a capture to a checkpoint. -/
def restoreCapture (l : Lexer) (c : ℕ × Position) : Lexer :=
  { l with raw := l.raw.take c.1, spellingPosition := c.2 }

/-- What `csh_lexer_replay_arithmetic` returns: 1, 0 or -1. -/
inductive Replay
  | replayed
  | refused
  | failed
  deriving DecidableEq, Repr, Inhabited

/-- The part of `csh_lexer_replay_arithmetic` behind its guards, for the deepest
lexer and its innermost checkpoint. -/
def restore (m : Machine) (c : Checkpoint) (previous : List Checkpoint) :
    Except Machine Machine :=
  let l := restoreCapture m.lexer (c.captures.headD (0, {}))
  let l := { l with
    fragments := l.fragments.take c.fragmentCount,
    frames := l.frames.drop (l.frames.length - c.frameCount),
    command := false, arithmetic := previous }
  let m : Machine :=
    { source := c.source, lexer := l, parents := m.parents.zipWith restoreCapture c.captures.tail }
  match m.push .command .command c.quote c.commandLength with
  | .error m => .error m
  | .ok m => .ok (m.onLexer fun l => { l with command := true })

/-- The part of `csh_lexer_replay_arithmetic` that decides whether the candidate
may still be completed by more input: it may not be replayed then. -/
def replayRefused (m : Machine) (l : Lexer) (c : Checkpoint) (error : Option Failure) :
    Option Bool :=
  let message := (error.map Failure.message).getD []
  if error.isSome && message == ascii "unterminated arithmetic expansion" then some true
  else if m.source.final && error.isSome && (ascii "unterminated ").isPrefixOf message then
    probeArithmetic l c true
  else some false

/-- `csh_lexer_replay_arithmetic` on the lexer at a depth. -/
def replayArithmetic (m : Machine) (depth : ℕ) (error : Option Failure) : Replay × Machine :=
  let l := m.lexerAt depth
  match l.arithmetic with
  | [] => (.refused, m)
  | c :: previous =>
    if (error.map Failure.systemErrno).getD 0 ≠ 0 ∨
        (m.source.failure.map Failure.systemErrno).getD 0 ≠ 0 then (.refused, m)
    else match m.replayRefused l c error with
      | none =>
        -- The failure is cleared first, so that the new one is recorded.
        let m := { m with source := { m.source with failure := none } }
        (.failed, m.failAt l (ascii "arithmetic stack exhausted") enomem m.source.position)
      | some true => (.refused, m)
      | some false =>
        match (m.unwind depth).restore c previous with
        | .ok m => (.replayed, m)
        | .error m => (.failed, m)

end Machine

/-! ### Publishing a token -/

/-- `unterminated_context`. -/
def unterminatedContext : FrameKind → Bytes
  | .single => ascii "unterminated single quote"
  | .double => ascii "unterminated double quote"
  | .dollarSingle => ascii "unterminated dollar-single quote"
  | .parameter => ascii "unterminated parameter expansion"
  | .arithmetic => ascii "unterminated arithmetic expansion"
  | .backquote => ascii "unterminated backquote substitution"
  | .command => ascii "unterminated command substitution"
  | .simple => ascii "unterminated parameter name"

/-- The token of a lexer. -/
def Lexer.token (l : Lexer) : Token :=
  { kind := l.kind, raw := l.raw, start := l.start, stop := l.spellingPosition,
    fragments := l.fragments, sourceName := l.tokenName, aliasName := l.aliasName,
    invocationSource := l.invocationSource, invocation := l.invocation,
    aliasEligible := l.aliasEligible }

/-- `publish`. -/
def Machine.publish (m : Machine) : Step :=
  let t := m.lexer.token
  .done (.token t) <| m.onLexer fun l =>
    { l with
      raw := [], tokenName := [], aliasName := none, invocationSource := none, invocation := {},
      fragments := [], active := false, operatorText := [],
      last := some { kind := t.kind, start := t.start, stop := t.stop,
                     sequence := m.source.sequence } }

/-- `operator_char`. -/
def operatorChar (byte : UInt8) : Bool := (ascii "|&;()<>").contains byte

/-- `parameter_context`; `none` is a wide character.  Only the four pattern-removal
operators reset an enclosing double-quote context. -/
def Frame.parameterContext (f : Frame) (byte : Option UInt8) : Frame :=
  let is := fun (p : UInt8 → Bool) => (byte.map p).getD false
  let pattern := is fun b => b == byteOf '#' || b == byteOf '%'
  let operator : Frame := { f with quote := if pattern then .none else f.quote, stage := 5 }
  match f.stage with
  | 0 | 1 =>
    if f.stage = 0 ∧ is (fun b => b == byteOf '#') = true then { f with stage := 4 }
    else { f with stage := if is nameStart then 2 else if is digit then 3 else 4 }
  | 2 => if is nameByte then f else operator
  | 3 => if is digit then f else operator
  | 5 => f
  | _ => operator

/-- Change the innermost frame. -/
def Lexer.onFrame (l : Lexer) (f : Frame → Frame) : Lexer :=
  match l.frames with
  | [] => l
  | frame :: rest => { l with frames := f frame :: rest }

namespace Lexer

/-- The innermost frame is of a kind. -/
def inFrame (l : Lexer) (kind : FrameKind) : Bool :=
  match l.frames with
  | [] => false
  | frame :: _ => decide (frame.kind = kind)

/-- The quote a round of `next_token` starts with. -/
def frameQuote (l : Lexer) : Quote :=
  match l.frames with
  | [] => if l.document then .double else .none
  | frame :: _ => frame.quote

/-- The quote behind the parameter and arithmetic cases of a round. -/
def contextQuote (l : Lexer) : Quote :=
  if l.inFrame .arithmetic then .double else l.frameQuote

end Lexer

namespace Machine

/-- Start a word unless a token is pending. -/
def startWord (m : Machine) : Machine :=
  if m.lexer.active then m else m.startToken.onLexer fun l => { l with kind := .word }

variable (d : Decoder)

/-! ### The groups of cases of `next_token` -/

/-- The `candidate` of `operator_step` as `strcmp` reads it, which is up to a NUL. -/
def candidate (text : Bytes) (byte : UInt8) : Bytes := if byte = 0 then text else text ++ [byte]

/-- `operator_step`; its recursion is the next round. -/
def operatorStep (m : Machine) : Step :=
  let text := m.lexer.operatorText
  if operators.any fun op => text.isPrefixOf op.1 && decide (text.length < op.1.length) then
    match m.peek d 0 with
    | (.more, m) => .done .more m
    | (.byte byte physical, m) =>
      match operators.find? fun op => op.1 == candidate text byte with
      | none => m.publish
      | some op =>
        match (m.onLexer fun l => { l with kind := op.2 }).delimiter .none physical with
        | .error m => .done .error m
        | .ok m => .again (m.onLexer fun l => { l with operatorText := candidate text byte })
    | (_, m) => m.publish
  else m.publish

/-- `eof`; its recursion is the next round. -/
def eof (m : Machine) : Step :=
  match m.lexer.frames with
  | frame :: _ =>
    if frame.kind = .simple then .attempt (m.pop 0)
    else
      .done .error (m.failAt m.lexer (unterminatedContext frame.kind) 0
        ((m.lexer.fragments[frame.fragment]?.map Fragment.start).getD {}))
  | [] =>
    if m.lexer.active then m.publish
    else
      match m.parents with
      | [] => .done .eof m
      | parent :: _ =>
        -- The opening belongs to the suspended word of the parent.
        let opening := parent.frames.head?.bind fun frame => parent.fragments[frame.fragment]?
        .done .error (m.failAt parent (ascii "unterminated command substitution") 0
          ((opening.map Fragment.start).getD {}))

/-- A round inside a parameter name, which ends at its first other byte. -/
def simpleStep (m : Machine) : Step :=
  let quote := m.lexer.frameQuote
  match m.peek d 0 with
  | (.more, m) => .done .more m
  | (.byte next physical, m) =>
    if nameByte next then .attempt (m.delimiter quote physical) else .attempt (m.pop 0)
  | (_, m) => .attempt (m.pop 0)

/-- A round at a character of several bytes. -/
def wideStep (m : Machine) (width : ℕ) : Step :=
  let m := m.startWord
  let m := if m.lexer.inFrame .parameter then
      m.onLexer fun l => l.onFrame fun f => f.parameterContext none
    else m
  .attempt (m.piece .text m.lexer.frameQuote width)

/-- Give up the innermost candidate in the middle of a round. -/
def giveUp (m : Machine) : Step :=
  match m.replayArithmetic m.depth none with
  | (.replayed, m) => .done .replay m
  | (_, m) => .done .error m

/-- The arithmetic cases of a round: `.error` leaves the round, `.ok` falls through. -/
def arithmeticByte (m : Machine) (byte : UInt8) : Except Step Machine :=
  if !m.lexer.inFrame .arithmetic then .ok m
  else if (ascii ";'\"\x7b\x7d#@").contains byte then .error m.giveUp
  else if byte = byteOf '(' then
    .ok (m.onLexer fun l => l.onFrame fun f => { f with parentheses := f.parentheses + 1 })
  else if byte = byteOf ')' then
    if ((m.lexer.frames.head?).map Frame.parentheses).getD 0 ≠ 0 then
      .ok (m.onLexer fun l => l.onFrame fun f => { f with parentheses := f.parentheses - 1 })
    else
      match m.lexer.arithmetic with
      | [] => .error (.done .error m)
      | c :: previous =>
        match probeArithmetic m.lexer c false with
        | none => .error (.done .error (m.fail (ascii "arithmetic stack exhausted") enomem))
        | some false => .error m.giveUp
        | some true =>
          match m.peek d 1 with
          | (.more, m) => .error (.done .more m)
          | (.eof, m) => .ok m
          | (.byte next physical, m) =>
            if next = byteOf ')' then
              match m.pop physical with
              | .error m => .error (.done .error m)
              | .ok m => .error (.again (m.onLexer fun l => { l with arithmetic := previous }))
            else .error m.giveUp
          | (_, m) => .error m.giveUp
  else .ok m

/-- Does a backslash quote the character behind it? -/
def escapes (l : Lexer) (quote : Quote) (next : Option UInt8) : Bool :=
  let is := fun (p : UInt8 → Bool) => (next.map p).getD false
  if l.inFrame .backquote then
    is (strchr (ascii "$`\\")) || (decide (quote = .double) && is (· == byteOf '"'))
  else
    decide (quote ≠ .double) || is (strchr (ascii "$`\\")) ||
      (is (· == byteOf '"') && !l.inFrame .arithmetic && !(l.document && l.frames.isEmpty)) ||
      (l.inFrame .parameter && is (· == byteOf '\x7d'))

/-- The backslash cases of a round. -/
def escapeByte (m : Machine) (byte : UInt8) : Except Step Machine :=
  if byte ≠ byteOf '\\' then .ok m
  else
    let quote := m.lexer.contextQuote
    let rest := m.source.unread.tail
    if rest = [] then
      if m.source.final then .error (.done .error (m.fail (ascii "unterminated escape") 0))
      else .error (.done .more m)
    else
      let width := d.characterLength rest m.source.final
      let next := if 1 < width then none else rest.head?
      if width = 0 then .error (.done .more m)
      else if m.lexer.inFrame .dollarSingle then .error (.attempt (m.piece .escape quote (1 + width)))
      else if next = some (byteOf '\n') ∧
          ¬(m.lexer.inFrame .backquote = true ∧ quote = .none) then
        .error (.attempt
          (if m.lexer.active then m.piece .continuation quote 2 else m.consume 2))
      else if escapes m.lexer quote next then
        .error (.attempt (m.startWord.piece .escape quote (1 + width)))
      else .ok m

/-- A round at a separator between tokens: a blank, a newline or an operator. -/
def separatorStep (m : Machine) (byte : UInt8) : Step :=
  if m.lexer.active then m.publish
  else if byte = byteOf ' ' ∨ byte = byteOf '\t' then .attempt (m.consume 1)
  else if byte = byteOf '\n' then
    match (m.startToken.onLexer fun l => { l with kind := .newline }).consume 1 with
    | .error m => .done .error m
    | .ok m => m.publish
  else
    let kind := fun (l : Lexer) => ((operators.find? fun op => op.1 == [byte]).map Prod.snd).getD l.kind
    .attempt ((m.startToken.onLexer fun l =>
      { l with operatorText := [byte], kind := kind l }).consume 1)

/-- `dollar`, and the text piece behind it when the dollar is an ordinary byte. -/
def dollar (m : Machine) (quote : Quote) : Step :=
  match m.peek d 1 with
  | (.more, m) => .done .more m
  | (.byte next physical, m) =>
    if next = byteOf '\x7b' then .attempt (m.push .parameter .parameter quote physical)
    else if next = byteOf '(' then
      match m.peek d 2 with
      | (.more, m) => .done .more m
      | (look, m) =>
        match look with
        | .byte third thirdPhysical =>
          if third = byteOf '(' then
            match (m.checkpointArithmetic physical quote).push .arithmetic .arithmetic quote
              thirdPhysical with
            | .error m => .done .error m
            | .ok m =>
              .again (m.onLexer fun l =>
                { l with arithmetic := l.arithmetic.modifyHead fun c =>
                    { c with bodyBegin := l.raw.length } })
          else commandOpening m physical
        | _ => commandOpening m physical
    else if next = byteOf '\'' ∧ quote = .none then
      .attempt (m.push .dollarSingle .quoted .dollarSingle physical)
    else if nameStart next then .attempt (m.push .simple .parameter quote physical)
    else if digit next ∨ (ascii "@*#?-$!").contains next = true then
      match m.push .simple .parameter quote physical with
      | .error m => .done .error m
      | .ok m => .attempt (m.pop 0)
    else .attempt (m.piece .text quote 1)
  | (_, m) => .attempt (m.piece .text quote 1)
where
  /-- The opening of a command substitution. -/
  commandOpening (m : Machine) (physical : ℕ) : Step :=
    match m.push .command .command quote physical with
    | .error m => .done .error m
    | .ok m => .done .command (m.onLexer fun l => { l with command := true })

/-- The end of a round, for a byte that belongs to a word. -/
def wordByte (m : Machine) (byte : UInt8) : Step :=
  let m := m.startWord
  let quote := m.lexer.contextQuote
  if byte = byteOf '"' ∧ m.lexer.inFrame .arithmetic = false ∧
      ¬(m.lexer.document = true ∧ m.lexer.frames = []) then
    if m.lexer.inFrame .double then .attempt (m.pop 1)
    else .attempt (m.push .double .quoted .double 1)
  else if byte = byteOf '\'' ∧ quote = .none then .attempt (m.push .single .quoted .single 1)
  else if byte = byteOf '$' then m.dollar d quote
  else if byte = byteOf '`' then .attempt (m.push .backquote .backquote quote 1)
  else .attempt (m.piece .text quote 1)

/-- The cases of a round behind the escapes. -/
def plainByte (m : Machine) (byte : UInt8) : Step :=
  if m.lexer.inFrame .dollarSingle || m.lexer.inFrame .backquote then
    if byte = (if m.lexer.inFrame .dollarSingle then byteOf '\'' else byteOf '`') then
      .attempt (m.pop 1)
    else .attempt (m.piece .text m.lexer.contextQuote 1)
  else if m.lexer.document = false ∧ m.lexer.frames = [] ∧
      (byte = byteOf ' ' ∨ byte = byteOf '\t' ∨ byte = byteOf '\n' ∨ operatorChar byte = true) then
    m.separatorStep byte
  else if m.lexer.document = false ∧ m.lexer.active = false ∧ byte = byteOf '#' then
    .again (m.onLexer fun l => { l with comment := true })
  else m.wordByte d byte

/-- The cases of a round for a character of one byte. -/
def byteStep (m : Machine) (byte : UInt8) : Step :=
  if m.lexer.inFrame .single then
    if byte = byteOf '\'' then .attempt (m.pop 1)
    else .attempt (m.piece .text m.lexer.frameQuote 1)
  else if m.lexer.inFrame .parameter ∧ byte = byteOf '\x7d' then .attempt (m.pop 1)
  else
    -- Continuations must not advance the parameter header state.
    let m := if m.lexer.inFrame .parameter ∧ byte ≠ byteOf '\\' then
        m.onLexer fun l => l.onFrame fun f => f.parameterContext (some byte)
      else m
    match m.arithmeticByte d byte with
    | .error s => s
    | .ok m =>
      match m.escapeByte d byte with
      | .error s => s
      | .ok m => m.plainByte d byte

/-- One round of the loop of `next_token`. -/
def step (m : Machine) : Step :=
  if m.lexer.active = true ∧ m.lexer.kind ≠ .word then m.operatorStep d
  else if m.source.unread = [] then
    if m.source.final then m.eof else .done .more m
  else
    let byte := m.source.data.getD m.source.cursor 0
    if byte = 0 then .done .error (m.fail (ascii "NUL byte in shell input") 0)
    else if m.lexer.comment = true ∧ byte ≠ byteOf '\n' then .attempt (m.consume 1)
    else
      let m := m.onLexer fun l => { l with comment := false }
      if m.lexer.inFrame .simple then m.simpleStep d
      else
        let width := d.characterLength m.source.unread m.source.final
        if width = 0 then .done .more m
        else if 1 < width then m.wideStep width
        else m.byteStep d byte

/-- The loop of `next_token`, for as many rounds as the fuel allows. -/
def scanLoop : ℕ → Machine → Option (LexResult × Machine)
  | 0, _ => none
  | fuel + 1, m =>
    match m.step d with
    | .again m => scanLoop fuel m
    | .done result m => some (result, m)

/-- A bound on the rounds: every round reads a byte, leaves a parameter name or
enters a comment.  `Session.rounds_suffice` shows that it suffices. -/
def rounds (m : Machine) : ℕ :=
  4 * m.source.unread.length + 2 * m.lexer.frames.length + (if m.lexer.comment then 0 else 1) + 1

/-- `next_token` on the lexer at a depth. -/
def nextToken (m : Machine) (depth : ℕ) : LexResult × Machine :=
  if m.source.failure.isSome then (.error, m)
  else if depth ≠ m.depth then
    (.error, m.failAt (m.lexerAt depth) (ascii "read the active command lexer") einval
      m.source.position)
  else if m.lexer.command then (.command, m)
  else (scanLoop d m.rounds m).getD (.error, m)

/-! ### The interface -/

/-- `csh_lexer_next`. -/
def lexerNext (m : Machine) (depth : ℕ) : LexResult × Machine :=
  if m.source.failure.isSome then (.error, m)
  else
    match m.nextToken d depth with
    | (.error, m) =>
      if (m.lexerAt depth).arithmetic.isEmpty then (.error, m)
      else
        match m.replayArithmetic depth m.source.failure with
        | (.replayed, m) => (.replay, m)
        | (_, m) => (.error, m)
    | answer => answer

end Machine

/-- The bytes of a feed, appended to a source. -/
def Source.append (s : Source) (bytes : Bytes) (final : Bool) : Source :=
  { s with data := s.data ++ bytes, final }

/-- The consumed bytes of the tape are dropped before a feed. -/
def Source.compact (s : Source) : Source :=
  { s with
    data := s.unread, cursor := 0,
    aliases := s.aliases.map fun a => { a with stop := a.stop - s.cursor } }

/-- A feed reaches every checkpoint. -/
def Lexer.feed (bytes : Bytes) (final : Bool) (l : Lexer) : Lexer :=
  { l with arithmetic := l.arithmetic.map fun c => { c with source := c.source.append bytes final } }

namespace Machine

/-- `csh_lexer_feed`; the flag is its success. -/
def feed (m : Machine) (bytes : Bytes) (final : Bool) : Bool × Machine :=
  if m.source.failure.isSome then (false, m)
  else if m.source.final then (false, m.fail (ascii "invalid lexer feed") einval)
  else
    (true, { source := m.source.compact.append bytes final, lexer := m.lexer.feed bytes final,
             parents := m.parents.map (Lexer.feed bytes final) })

/-- `csh_lexer_command_fragment`; `none` is `CSH_FRAGMENT_ROOT`. -/
def commandFragment (m : Machine) (depth : ℕ) : Option ℕ :=
  let l := m.lexerAt depth
  if l.command then l.frames.head?.map Frame.fragment else none

/-- `csh_lexer_command_begin`. -/
def commandBegin (m : Machine) (depth : ℕ) : Bool × Machine :=
  if m.source.failure.isSome then (false, m)
  else if depth ≠ m.depth ∨ m.lexer.command = false then
    (false, m.failAt (m.lexerAt depth) (ascii "no pending command substitution") einval
      m.source.position)
  else (true, { m with lexer := {}, parents := m.lexer :: m.parents })

/-- The token that closes a command substitution is the last one its lexer read. -/
def closes (m : Machine) (closing : Token) : Bool :=
  !m.lexer.active &&
    match m.lexer.last with
    | none => false
    | some last =>
      decide (closing.kind = .rparen ∧ last.kind = .rparen ∧
        closing.start.offset = last.start.offset ∧ closing.stop.offset = last.stop.offset ∧
        last.sequence = m.source.sequence)

/-- `csh_lexer_command_end` on a parent and its child. -/
def commandEnd (m : Machine) (depth : ℕ) (closing : Token) : Bool × Machine :=
  if m.source.failure.isSome then (false, m)
  else
    match m.parents with
    | parent :: rest =>
      if depth = rest.length ∧ parent.command = true ∧ m.closes closing = true then
        let m : Machine := { m with lexer := { parent with command := false }, parents := rest }
        match m.pop 0 with
        | .ok m => (true, m)
        | .error m => (false, m)
      else
        (false, m.failAt (m.lexerAt depth) (ascii "invalid command-substitution boundary") einval
          m.source.position)
    | [] =>
      (false, m.failAt (m.lexerAt depth) (ascii "invalid command-substitution boundary") einval
        m.source.position)

/-- `csh_lexer_alias_active`. -/
def aliasActive (m : Machine) (name : Bytes) : Bool :=
  m.source.aliases.any fun a => a.name == name

/-- `csh_lexer_follows_redirection`; a lookahead that faults finds no redirection here. -/
def followsRedirection (d : Decoder) (m : Machine) : Bool × Machine :=
  match m.peek d 0 with
  | (.byte byte _, m) => (byte == byteOf '<' || byte == byteOf '>', m)
  | (_, m) => (false, m)

/-- The token is the word its lexer published last, and nothing was read since. -/
def delimited (m : Machine) (token : Token) : Bool :=
  !m.lexer.active &&
    match m.lexer.last with
    | none => false
    | some last =>
      decide (token.kind = .word ∧ last.kind = .word ∧
        token.start.offset = last.start.offset ∧ token.stop.offset = last.stop.offset ∧
        last.sequence = m.source.sequence)

/-- `csh_lexer_alias_push`. -/
def aliasPush (m : Machine) (depth : ℕ) (token : Token) (name value : Bytes) : Bool × Machine :=
  if m.source.failure.isSome then (false, m)
  else if name = [] ∨ depth ≠ m.depth ∨ m.delimited token = false ∨ m.aliasActive name = true then
    (false, m.failAt (m.lexerAt depth) (ascii "invalid alias substitution boundary") einval
      m.source.position)
  else
    let s := m.source
    let added := value.length + 1
    let entry : AliasSource :=
      { name, sourceName := ascii "alias:" ++ name,
        invocationSource := token.invocationSource.getD token.sourceName,
        invocation := if token.invocationSource.isSome then token.invocation else token.start,
        resume := s.position, stop := s.cursor + added, ownerDepth := m.depth,
        trailingBlank := (value.getLast?.map fun b =>
          b == byteOf ' ' || b == byteOf '\t').getD false }
    (true,
      { m with
        source :=
          { s with
            data := s.data.take s.cursor ++ value ++ [byteOf ' '] ++ s.unread,
            aliases := entry :: s.aliases.map fun a => { a with stop := a.stop + added },
            position := { line := 1, column := 1 },
            aliasEligible := !value.isEmpty && token.aliasEligible, look := none },
        lexer := { m.lexer with last := none } })

/-- `csh_lexer_skip_raw`. -/
def skipRaw (m : Machine) (depth : ℕ) (length : ℕ) : Bool × Machine :=
  if m.source.failure.isSome then (false, m)
  else if depth ≠ m.depth ∨ m.lexer.active = true ∨ m.lexer.comment = true ∨
      m.source.unread.length < length then
    (false, m.failAt (m.lexerAt depth) (ascii "invalid raw input handoff") einval
      m.source.position)
  else
    match (m.onLexer fun l => { l with last := none }).consume length with
    | .ok m => (true, m)
    | .error m => (false, m)

end Machine

/-- `csh_lexer_create`, `csh_lexer_set_position` and `csh_lexer_document`. -/
def Machine.create (name : Bytes) (position : Position) (document : Bool) : Machine :=
  { source := { name, position }, lexer := { document }, parents := [] }

end Lexical
end CShell
