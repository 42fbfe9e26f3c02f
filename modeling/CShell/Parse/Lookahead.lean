import CShell.Parse.State

/-!
# The lookahead

One token of lookahead for each frame.  `peekRaw` reads it, feeding the lexer line by
line and parsing the command substitutions of the word on the way; `peekAlias`
replaces it as long as it is an alias in a position for one.  A newline token ends a
line, so that the here-documents of the line are read when it is consumed.

The commands of a substitution are parsed by `list`, which is absent once the native
stack is used up.  Loops take `rounds` rounds at most; whether that is enough is a
question of its own.

## Main definitions

* `peekRaw`, `peekAlias`, `peek` — the lookahead.
* `collectDocuments`, `newline` — here-documents.
* `skipNewlines`, `expectToken`, `consumeKeyword` — what productions begin and end with.

## References

`src/parser.c`.
-/

namespace CShell
namespace Parse

open Lexical

/-- `fail_at`. -/
def failAt {α : Type} (result : ParseResult) (message : String) (number : ℕ) (position : Position) :
    P α := do
  Program.modify fun s => s.failAt result (ascii message) number position
  Program.stop .failed

/-- `adopt_error`. -/
def adoptError {α : Type} (error : Failure) : P α := do
  Program.modify fun s => s.adoptError error
  Program.stop .failed

/-- An operation whose error is adopted. -/
def orAdopt (f : Run → Option Failure × Run) : P Unit := do
  match ← Program.update f with
  | none => pure ()
  | some error => adoptError error

section

variable (d : Decoder) (rounds : ℕ) (list : Option (Closing → Bool → Position → P Ast))

/-! ### Tokens -/

/-- The commands of a substitution, in the frame of their lexer. -/
def commandBody (list : Closing → Bool → Position → P Ast) (opening : Position) : P Ast := do
  let body ← list .paren true opening
  let s ← Program.gets id
  if s.frame.documents.isEmpty then pure body
  else
    failAt .error "command substitution closes before here-document body" 0
      ((s.frame.look.map fun word => tokenPosition word.token).getD {})

/-- The loop of `peek_raw`. -/
def peekLoop : ℕ → P (Option Word)
  | 0 => Program.stop .exhausted
  | n + 1 => do
    match ← Program.update (Run.next d) with
    | .error =>
      let s ← Program.gets id
      adoptError (Run.lexerError s.parser.machine)
    | .more =>
      orAdopt Run.feedLine
      peekLoop n
    | .eof => pure none
    | .replay => peekLoop n
    | .token _ => Program.gets fun s => s.frame.look
    | .command =>
      let opening ← Program.gets Run.commandOpening
      match list with
      | none => failAt .error "parser stack exhausted" enomem opening
      | some list =>
        orAdopt Run.beginCommand
        match ← Program.attempt (commandBody list opening) with
        | .ok body =>
          match ← Program.update (Run.endCommand body) with
          | none => peekLoop n
          | some error =>
            Program.modify fun s => s.adoptError error
            replayOr (peekLoop n)
        | .error .exhausted => Program.stop .exhausted
        | .error .failed =>
          Program.modify Run.popFrame
          replayOr (peekLoop n)
where
  /-- The end of `peek_raw` behind a failed substitution. -/
  replayOr (again : P (Option Word)) : P (Option Word) := do
    match ← Program.update Run.replay with
    | .refused => Program.stop .failed
    | .failed =>
      let s ← Program.gets id
      adoptError (Run.lexerError s.parser.machine)
    | .replayed => again

/-- `peek_raw`: the lookahead, or nothing at the end of the input. -/
def peekRaw : P (Option Word) := do
  let s ← Program.gets id
  if s.frame.look.isSome then pure s.frame.look
  else if s.frame.eof then pure none
  else peekLoop d list rounds

/-- The loop of `peek_alias`. -/
def aliasLoop (place : Place) (commandPosition : Bool) : ℕ → P (Option Word)
  | 0 => Program.stop .exhausted
  | n + 1 => do
    match ← peekRaw d rounds list with
    | none => pure none
    | some word =>
      let s ← Program.gets id
      match s.parser.aliases with
      | none => pure (some word)
      | some table =>
        if word.token.kind != .word || (!commandPosition && !word.token.aliasEligible) ||
            reserved word.token then pure (some word)
        else
          let descriptor ←
            if ioNumber word.token then Program.update (Run.followsRedirection d) else pure false
          if descriptor then pure (some word)
          else
            match ← Program.update (Run.lookup place word.token table) with
            | none => pure (some word)
            | some (name, value) =>
              orAdopt (Run.pushAlias place word.token table name value)
              aliasLoop place commandPosition n

/-- `peek_alias`. -/
def peekAlias (place : Place) (commandPosition : Bool) : P (Option Word) :=
  aliasLoop d rounds list place commandPosition rounds

/-- `peek`. -/
def peek (place : Place) : P (Option Word) := peekAlias d rounds list place false

/-- `take`, `discard`. -/
def discard : P Unit := Program.modify Run.discard

/-- `position`. -/
def position : P Position := Program.gets Run.position

/-! ### Here-documents -/

/-- What `collect_documents` keeps of one document between two lines. -/
structure Collecting where
  lineStart : Position
  body : Bytes := []
  line : Bytes := []
  logical : Bytes := []
  deriving DecidableEq, Repr, Inhabited

/-- The loop of `collect_documents` over the lines of one document. -/
def documentLoop (index : ℕ) (document : Document) (discardBody : Bool) : ℕ → Collecting → P Unit
  | 0, _ => Program.stop .exhausted
  | n + 1, c => do
    let s ← Program.gets id
    let source := s.parser.machine.source
    let pending := source.unread
    if pending.isEmpty then
      if source.final then
        failAt .incomplete "unterminated here-document" 0 document.operandPosition
      else
        orAdopt Run.feedLine
        documentLoop index document discardBody n c
    else
      let lineStart := if c.line.isEmpty then source.position else c.lineStart
      let content := pending.takeWhile (· != byteOf '\n')
      let length := if content.length < pending.length then content.length + 1 else content.length
      let backslashes :=
        if !document.delimiterQuoted && content.length < length then trailingBackslashes d content 0
        else 0
      let continued := backslashes % 2 != 0
      let line := c.line ++ pending.take length
      let logical := c.logical ++ content.take (content.length - (if continued then 1 else 0))
      orAdopt (Run.skipLine length)
      if continued then documentLoop index document discardBody n { c with lineStart, line, logical }
      else
        let strip := document.operatorKind == .dlessDash
        let compared := if strip then logical.dropWhile (· == byteOf '\t') else logical
        if compared = document.delimiter then
          Program.modify (Run.setDocument index fun document =>
            { document with body := if discardBody then none else some c.body, bodyStop := lineStart })
        else
          let body :=
            if discardBody then c.body else c.body ++ documentLine line strip document.delimiterQuoted
          documentLoop index document discardBody n { lineStart, body }

/-- The loop of `collect_documents` over the documents of a frame. -/
def collectLoop (discardBody : Bool) : List ℕ → P Unit
  | [] => pure ()
  | index :: rest => do
    let start ← position
    Program.modify (Run.setDocument index fun document => { document with bodyStart := start })
    let s ← Program.gets id
    match s.documents[index]? with
    | none => collectLoop discardBody rest
    | some document =>
      documentLoop d index document discardBody rounds { lineStart := start }
      collectLoop discardBody rest

/-- `collect_documents`. -/
def collectDocuments (discardBody : Bool) : P Unit := do
  let s ← Program.gets id
  collectLoop d rounds discardBody s.frame.documents
  Program.modify Run.clearDocuments

/-- `newline`. -/
def newline : P Unit := do
  discard
  collectDocuments d rounds false

/-! ### Beginnings and ends of productions -/

/-- The loop of `skip_newlines`. -/
def skipLoop (place : Place) : ℕ → P (Option Word)
  | 0 => Program.stop .exhausted
  | n + 1 => do
    match ← peekAlias d rounds list place true with
    | some word =>
      if word.token.kind = .newline then
        newline d rounds
        skipLoop place n
      else pure (some word)
    | none => pure none

/-- `skip_newlines`. -/
def skipNewlines (place : Place) : P (Option Word) := skipLoop d rounds list place rounds

/-- `expect_token`; any spelling will do if none is given. -/
def expectToken (place : Place) (kind : TokenKind) (spelling : Option String) (message : String) :
    P Word := do
  match ← peek d rounds list place with
  | none => failAt .incomplete message 0 (← position)
  | some word =>
    if word.token.kind != kind || !(spelling.map (plainEqual word.token)).getD true then
      failAt .error message 0 (← position)
    else pure word

/-- `consume_keyword`; the end of the node is returned. -/
def consumeKeyword (spelling : String) : P Position := do
  let word ← expectToken d rounds list .keyword .word (some spelling) "expected compound command keyword"
  discard
  pure word.token.stop

end

end Parse
end CShell
