import CShell.Token
import CShell.Character

/-!
# The lexer's tape and its frames

All lexers of a parse share one tape: the root lexer reads the words of the
command line, and every pending `$(` adds a child that reads the same bytes.
Alias values are inserted at the cursor, with a stack that restores the physical
position on return.  A lexer in the middle of a token captures the bytes it and
its descendants consume.

A `Machine` is the tape with the chain of lexers on it.  A function that fails
returns `.error m` with the machine as the failure leaves it: the error reported
is `m.source.failure`, and work that an arithmetic checkpoint may still replay is
kept.

Allocation failures and counters that pass `SIZE_MAX` are left out.

## Main definitions

* `Source`, `Frame`, `Checkpoint`, `Lexer`, `Machine` — the data.
* `failAt`, `consume`, `startToken`, `addFragment`, `piece`, `delimiter`, `push`,
  `pop` — what every scanning step is made of.
* `peek` — the lookahead over logical characters.

## References

`src/lexer.c`.
-/

namespace CShell

/-- The position behind a byte. -/
def Position.advance (p : Position) (byte : UInt8) : Position :=
  if byte = byteOf '\n' then { offset := p.offset + 1, line := p.line + 1, column := 1 }
  else { offset := p.offset + 1, line := p.line, column := p.column + 1 }

/-- `struct csh_error`, without the fields that only a diagnostic reads. -/
structure Failure where
  message : Bytes
  systemErrno : ℕ := 0
  status : ℕ := 2
  position : Position := {}
  deriving DecidableEq, Repr, Inhabited

namespace Lexical

/-- `EINVAL` and `ENOMEM`. -/
def einval : ℕ := 22

@[inherit_doc einval]
def enomem : ℕ := 12

/-- `struct alias_source`. -/
structure AliasSource where
  name : Bytes
  sourceName : Bytes
  invocationSource : Bytes
  invocation : Position
  resume : Position
  stop : ℕ
  ownerDepth : ℕ
  trailingBlank : Bool
  deriving DecidableEq, Repr, Inhabited

/-- The lookahead cache of a source: how far it scanned and where the logical
characters found so far begin, relative to the cursor. -/
structure LookCache where
  offset : ℕ
  scan : ℕ := 0
  positions : List ℕ := []
  deriving DecidableEq, Repr, Inhabited

/-- `struct source`; the alias stack has its top first, and `look` is `none` when
`look_valid` is 0. -/
structure Source where
  name : Bytes := []
  data : Bytes := []
  cursor : ℕ := 0
  position : Position := { line := 1, column := 1 }
  aliases : List AliasSource := []
  sequence : ℕ := 0
  aliasEligible : Bool := false
  look : Option LookCache := none
  final : Bool := false
  failure : Option Failure := none
  deriving DecidableEq, Repr, Inhabited

/-- The bytes at the cursor. -/
def Source.unread (s : Source) : Bytes := s.data.drop s.cursor

/-- `enum frame_kind`. -/
inductive FrameKind
  | single
  | double
  | dollarSingle
  | parameter
  | simple
  | arithmetic
  | backquote
  | command
  deriving DecidableEq, Repr, Inhabited

/-- `struct frame`. -/
structure Frame where
  kind : FrameKind
  quote : Quote
  fragment : ℕ
  parentheses : ℕ := 0
  stage : ℕ := 0
  deriving DecidableEq, Repr, Inhabited

/-- `struct arithmetic_checkpoint`; `captures` lists the lexer that made it and
then its ancestors, nearest first. -/
structure Checkpoint where
  source : Source
  fragmentCount : ℕ
  frameCount : ℕ
  commandLength : ℕ
  bodyBegin : ℕ := 0
  quote : Quote
  captures : List (ℕ × Position)
  deriving DecidableEq, Repr, Inhabited

/-- The `last_*` fields: the token a lexer published last. -/
structure LastToken where
  kind : TokenKind
  start : Position
  stop : Position
  sequence : ℕ
  deriving DecidableEq, Repr, Inhabited

/-- `struct csh_lexer`.  Frames and checkpoints have the innermost first; the
source, the parent, the child and the depth are given by the place in a `Machine`. -/
structure Lexer where
  start : Position := {}
  spellingPosition : Position := {}
  raw : Bytes := []
  tokenName : Bytes := []
  aliasName : Option Bytes := none
  invocationSource : Option Bytes := none
  invocation : Position := {}
  aliasEligible : Bool := false
  fragments : List Fragment := []
  frames : List Frame := []
  active : Bool := false
  comment : Bool := false
  command : Bool := false
  document : Bool := false
  kind : TokenKind := .word
  operatorText : Bytes := []
  last : Option LastToken := none
  arithmetic : List Checkpoint := []
  deriving DecidableEq, Repr, Inhabited

/-- The shared source, the deepest lexer and its ancestors, nearest first. -/
structure Machine where
  source : Source
  lexer : Lexer
  parents : List Lexer
  deriving DecidableEq, Repr, Inhabited

/-- The `operators` table. -/
def operators : List (Bytes × TokenKind) :=
  [(ascii "&&", .andIf), (ascii "||", .orIf),
   (ascii ";;", .dsemi), (ascii ";&", .semiAnd),
   (ascii "<<-", .dlessDash), (ascii "<<", .dless),
   (ascii ">>", .dgreat), (ascii "<&", .lessAnd),
   (ascii ">&", .greatAnd), (ascii "<>", .lessGreat),
   (ascii ">|", .clobber), (ascii "|", .pipe),
   (ascii "&", .ampersand), (ascii ";", .semi),
   (ascii "(", .lparen), (ascii ")", .rparen),
   (ascii "<", .less), (ascii ">", .great)]

namespace Machine

/-- The depth of the deepest lexer. -/
def depth (m : Machine) : ℕ := m.parents.length

/-- The chain from the deepest lexer to the root. -/
def chain (m : Machine) : List Lexer := m.lexer :: m.parents

/-- The lexer at a depth. -/
def lexerAt (m : Machine) (depth : ℕ) : Lexer := m.chain.getD (m.depth - depth) m.lexer

/-- Change the deepest lexer. -/
def onLexer (m : Machine) (f : Lexer → Lexer) : Machine := { m with lexer := f m.lexer }

end Machine

/-! ### Failures -/

/-- `release_work`. -/
def Lexer.releaseWork (l : Lexer) : Lexer :=
  { l with
    arithmetic := [], raw := [], tokenName := [], aliasName := none, invocationSource := none,
    fragments := [], frames := [], active := false, command := false, comment := false }

/-- `csh_lexer_diagnostic_position`. -/
def diagnosticPosition (s : Source) (l : Lexer) (position : Position) : Position :=
  match s.aliases with
  | top :: _ => top.invocation
  | [] => if l.invocationSource.isSome then l.invocation else position

namespace Machine

/-- Some lexer of the chain has an arithmetic candidate to fall back from. -/
def replayable (m : Machine) : Bool := m.chain.any fun l => !l.arithmetic.isEmpty

/-- The cleanup of `fail_at`. -/
def release (m : Machine) : Machine :=
  { source := { m.source with aliases := [], data := [], cursor := 0 },
    lexer := m.lexer.releaseWork, parents := m.parents.map Lexer.releaseWork }

/-- `fail_at`: the first failure sticks. -/
def failAt (m : Machine) (l : Lexer) (message : Bytes) (number : ℕ) (position : Position) :
    Machine :=
  match m.source.failure with
  | some _ => m
  | none =>
    let failure : Failure :=
      { message, systemErrno := number, status := if number = enomem then 1 else 2,
        position := diagnosticPosition m.source l position }
    have m : Machine := { m with source := { m.source with failure := some failure } }
    -- Syntax that was only part of an arithmetic candidate stays replayable.
    if number = 0 ∧ m.replayable = true then m else m.release

/-- `fail`, for the deepest lexer. -/
def fail (m : Machine) (message : Bytes) (number : ℕ) : Machine :=
  m.failAt m.lexer message number m.source.position

end Machine

/-! ### Consuming bytes -/

/-- One captured byte. -/
def Lexer.capture (byte : UInt8) (l : Lexer) : Lexer :=
  { l with raw := l.raw ++ [byte], spellingPosition := l.spellingPosition.advance byte }

/-- The byte at the cursor belongs to an alias that a lexer deeper than `depth`
substituted. -/
def Source.ownedBelow (s : Source) (depth : ℕ) : Bool :=
  match s.aliases with
  | top :: _ => decide (depth < top.ownerDepth)
  | [] => false

/-- The capture by the suspended words of the ancestors. -/
def captureParents (s : Source) (byte : UInt8) : List Lexer → List Lexer
  | [] => []
  | l :: rest =>
    (if l.active && !s.ownedBelow rest.length then l.capture byte else l) ::
      captureParents s byte rest

/-- Leave the aliases that end at the cursor. -/
def Source.leaveAliases : List AliasSource → Source → Source
  | [], s => { s with aliases := [] }
  | top :: rest, s =>
    if s.cursor = top.stop then
      leaveAliases rest
        { s with position := top.resume, aliasEligible := s.aliasEligible || top.trailingBlank }
    else { s with aliases := top :: rest }

/-- The tape behind one byte. -/
def Source.advance (s : Source) (byte : UInt8) : Source :=
  Source.leaveAliases s.aliases
    { s with sequence := s.sequence + 1, position := s.position.advance byte,
             cursor := s.cursor + 1 }

namespace Machine

/-- Forget the lookahead. -/
def forgetLook (m : Machine) : Machine := { m with source := { m.source with look := none } }

/-- The machine behind one byte. -/
def advance (m : Machine) (byte : UInt8) : Machine :=
  { source := m.source.advance byte,
    lexer := if m.lexer.active then m.lexer.capture byte else m.lexer,
    parents := captureParents m.source byte m.parents }

/-- `consume`. -/
def consume (m : Machine) : ℕ → Except Machine Machine
  | 0 => .ok m.forgetLook
  | count + 1 =>
    let m := m.forgetLook
    let byte := m.source.data.getD m.source.cursor 0
    if byte = 0 then .error (m.fail (ascii "NUL byte in shell input") 0)
    else (m.advance byte).consume count

/-- `start_token`. -/
def startToken (m : Machine) : Machine :=
  let l := { m.lexer with
    active := true, start := m.source.position, spellingPosition := m.source.position,
    aliasEligible := m.source.aliasEligible }
  let l := match m.source.aliases with
    | [] => { l with tokenName := m.source.name }
    | top :: _ =>
      { l with tokenName := top.sourceName, aliasName := some top.name,
               invocationSource := some top.invocationSource, invocation := top.invocation }
  { m with source := { m.source with aliasEligible := false }, lexer := l }

end Machine

/-! ### Fragments and frames -/

namespace Lexer

/-- `parent_fragment`. -/
def parentFragment (l : Lexer) : Option ℕ := l.frames.head?.map Frame.fragment

/-- `add_fragment`; its index is the number of fragments before. -/
def addFragment (l : Lexer) (kind : FragmentKind) (quote : Quote) : Lexer :=
  { l with fragments := l.fragments ++
      [{ kind, quote, parent := l.parentFragment, begin := l.raw.length, stop := l.raw.length,
         start := l.spellingPosition, finish := l.spellingPosition }] }

/-- `finish_fragment`. -/
def finishFragment (l : Lexer) (index : ℕ) : Lexer :=
  { l with fragments := l.fragments.modify index fun f =>
      { f with stop := l.raw.length, finish := l.spellingPosition } }

/-- The last fragment is a text that a piece of the same text goes on with. -/
def extendsText (l : Lexer) (quote : Quote) : Bool :=
  match l.fragments.getLast? with
  | some last =>
    decide (last.kind = .text ∧ last.quote = quote ∧ last.parent = l.parentFragment ∧
      last.stop = l.raw.length)
  | none => false

end Lexer

namespace Machine

/-- `piece`. -/
def piece (m : Machine) (kind : FragmentKind) (quote : Quote) (count : ℕ) :
    Except Machine Machine :=
  let joins := decide (kind = .text) && m.lexer.extendsText quote
  let index := if joins then m.lexer.fragments.length - 1 else m.lexer.fragments.length
  let m := if joins then m else m.onLexer fun l => l.addFragment kind quote
  match m.consume count with
  | .error m => .error m
  | .ok m => .ok (m.onLexer fun l => l.finishFragment index)

/-- `delimiter`: a known span of delimiters, in which continuations show. -/
def delimiter (m : Machine) (quote : Quote) : ℕ → Except Machine Machine
  | 0 => .ok m
  | 1 => m.consume 1
  | count + 2 =>
    if m.source.data.getD m.source.cursor 0 = byteOf '\\' ∧
        m.source.data.getD (m.source.cursor + 1) 0 = byteOf '\n' then
      match m.piece .continuation quote 2 with
      | .error m => .error m
      | .ok m => m.delimiter quote count
    else
      match m.consume 1 with
      | .error m => .error m
      | .ok m => m.delimiter quote (count + 1)

/-- `push`. -/
def push (m : Machine) (kind : FrameKind) (fragmentKind : FragmentKind) (quote : Quote)
    (count : ℕ) : Except Machine Machine :=
  let index := m.lexer.fragments.length
  let m := m.onLexer fun l => l.addFragment fragmentKind quote
  let m := m.onLexer fun l => { l with frames := { kind, quote, fragment := index } :: l.frames }
  m.delimiter quote count

/-- `pop`. -/
def pop (m : Machine) (count : ℕ) : Except Machine Machine :=
  match m.lexer.frames with
  | [] => .ok m
  | frame :: _ =>
    match m.delimiter frame.quote count with
    | .error m => .error m
    | .ok m =>
      .ok (m.onLexer fun l =>
        let l := l.finishFragment frame.fragment
        { l with frames := l.frames.tail })

end Machine

/-! ### Lookahead -/

/-- What `peek` answers: -2, -1, 256 or a byte, the last two with the physical
bytes up to the end of the character.  A `fault` is no answer: the source reads
outside the tape there. -/
inductive Look
  | more
  | eof
  | wide (physical : ℕ)
  | byte (value : UInt8) (physical : ℕ)
  | fault
  deriving DecidableEq, Repr, Inhabited

variable (d : Decoder)

/-- The `while` loop of `peek` over the bytes at the cursor; the first component
is an answer that leaves it early. -/
def lookLoop (text : Bytes) (final : Bool) (wanted : ℕ) : ℕ → LookCache → Option Look × LookCache
  | 0, c => (some .more, c)
  | fuel + 1, c =>
    if wanted < c.positions.length then (none, c)
    else if c.scan = text.length then (some (if final then .eof else .more), c)
    else if text.length < c.scan then (some .fault, c)
    else if text.getD c.scan 0 = byteOf '\\' ∧ c.scan + 1 = text.length ∧ final = false then
      (some .more, c)
    else if text.getD c.scan 0 = byteOf '\\' ∧ c.scan + 1 < text.length ∧
        text.getD (c.scan + 1) 0 = byteOf '\n' then
      lookLoop text final wanted fuel { c with scan := c.scan + 2 }
    else
      let width := d.characterLength (text.drop c.scan) final
      if width = 0 then (some .more, c)
      else
        lookLoop text final wanted fuel
          { c with positions := c.positions ++ [c.scan], scan := c.scan + width }

/-- The cache `peek` starts from. -/
def Source.lookCache (s : Source) : LookCache :=
  match s.look with
  | some c => if c.offset = s.position.offset then c else { offset := s.position.offset }
  | none => { offset := s.position.offset }

/-- `peek`. -/
def Machine.peek (m : Machine) (wanted : ℕ) : Look × Machine :=
  let s := m.source
  let text := s.unread
  let (answer, c) := lookLoop d text s.final wanted (text.length + 1) s.lookCache
  let m := { m with source := { s with look := some c } }
  match answer with
  | some look => (look, m)
  | none =>
    let offset := c.positions.getD wanted 0
    let width := d.characterLength (text.drop offset) s.final
    (if text.length ≤ offset then .fault
      else if 1 < width then .wide (offset + width)
      else .byte (text.getD offset 0) (offset + width), m)

end Lexical
end CShell
