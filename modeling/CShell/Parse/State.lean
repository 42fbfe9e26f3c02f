import CShell.Lexer.Scan
import CShell.Lib.Program
import CShell.Parse.Input
import CShell.Parse.Spelling
import CShell.Parse.Tree

/-!
# The parser's state

A parse is a stack of frames, one for each command substitution that is open, over
one chain of lexers and one input.  This file has the state and the operations on it
that the productions are made of; each of them is one step as far as the rest of the
parse can tell.

Memory is taken to suffice, and the hook before a read is left out, with the flag
that only it reads.

## Main definitions

* `Parser`, `Frame`, `Document`, `Run` — the state.
* `Place` — where in the grammar a token is looked at; `Event` — what a run did.
* `Run.failAt`, `Run.adoptError`, `Run.saveRecovery` — failures.
* `Run.feedLine`, `Run.next`, `Run.beginCommand`, `Run.endCommand`, `Run.replay`,
  `Run.pushAlias`, `Run.skipLine`, … — the operations.

## References

`src/parser.c`.
-/

namespace CShell
namespace Parse

open Lexical

/-- `enum csh_parse_result`. -/
inductive ParseResult
  | error
  | eof
  | tree
  | incomplete
  | interrupted
  deriving DecidableEq, Repr, Inhabited

/-- `enum closing`. -/
inductive Closing
  | nothing
  | paren
  | brace
  | thenWord
  | ifBranch
  | fiWord
  | doWord
  | doneWord
  | caseItem
  deriving DecidableEq, Repr, Inhabited

/-- What the grammar expects where the parser looks at a token. -/
inductive Place
  /-- Where a simple command has its name, behind the words read of it so far. -/
  | command (before : List CommandWord)
  /-- Behind a word of a simple command whose name has been read. -/
  | argument
  /-- Behind a word of a simple command, before it is known what that word is. -/
  | behindWord
  /-- The operand of a redirection. -/
  | operand
  /-- An operator or a closing word behind a command. -/
  | operator
  /-- A redirection behind a compound command. -/
  | trailing
  /-- A word that the grammar prescribes. -/
  | keyword
  /-- The variable of a `for` loop. -/
  | forName
  /-- `in`, a separator or `do` behind the variable of a `for` loop. -/
  | forIn
  /-- A word of a `for` list, or what ends the list. -/
  | forWord
  /-- `do` behind the list of a `for` loop. -/
  | forDo
  /-- The word of a `case` command. -/
  | caseWord
  /-- `in` behind the word of a `case` command. -/
  | caseIn
  /-- The first pattern of a `case` item, a parenthesis before it, or `esac`. -/
  | caseItem
  /-- A pattern of a `case` item. -/
  | casePattern
  /-- Behind a pattern. -/
  | caseBar
  /-- The closing parenthesis of a function definition. -/
  | functionClose
  /-- The body of a function definition. -/
  | functionBody

/-- What a run did: a line or the end of the input was read, a token of the lexer at a
depth came into the lookahead, a word was looked up among the aliases, it was
replaced, a line of a here-document was taken off the tape, or a candidate was put
back on it. -/
inductive Event
  | read (result : ReadResult)
  | token (depth : ℕ) (word : Word)
  | lookup (place : Place) (token : Token) (table : Bytes → Option Bytes) (machine : Machine)
  | replaced (place : Place) (token : Token) (table : Bytes → Option Bytes) (machine : Machine)
      (name value : Bytes)
  | skipped (line : Bytes)
  | replayed (unread : Bytes)

/-- The fields of a redirection that its here-document uses. -/
structure Document where
  operatorKind : TokenKind
  delimiter : Bytes
  delimiterQuoted : Bool
  /-- `token_position` of the operand. -/
  operandPosition : Position
  body : Option Bytes := none
  bodyStart : Position := {}
  bodyStop : Position := {}
  deriving DecidableEq, Repr, Inhabited

/-- `struct parse_frame`.  The look is the token with its substitutions; before its
token is complete, the substitutions wait in `pending`. -/
structure Frame where
  look : Option Word := none
  pending : List Substitution := []
  eof : Bool := false
  documents : List ℕ := []

/-- `struct csh_parser`. -/
structure Parser where
  input : Input
  machine : Machine
  aliases : Option (Bytes → Option Bytes) := none
  failure : Option Failure := none
  failureResult : ParseResult := .eof
  final : Bool := false
  eof : Bool := false
  recovery : List Document := []
  recoveryBytes : Bytes := []

/-- A parse: the parser, the frames, every here-document met, and what was done. -/
structure Run where
  parser : Parser
  frame : Frame := {}
  parents : List Frame := []
  documents : List Document := []
  events : List Event := []

/-- Why an action stops: the parse failed, or a loop went on for too many rounds. -/
inductive Stop
  | failed
  | exhausted
  deriving DecidableEq, Repr

/-- A part of the parser. -/
abbrev P (α : Type) := Program Run Stop α

namespace Run

/-- The depth of the frame's lexer. -/
def depth (s : Run) : ℕ := s.parents.length

/-- Change the lexers. -/
def onMachine (s : Run) (machine : Machine) : Run :=
  { s with parser := { s.parser with machine } }

/-- Note what was done. -/
def note (s : Run) (e : Event) : Run := { s with events := s.events ++ [e] }

/-- The error of a lexer call that failed. -/
def lexerError (machine : Machine) : Failure := machine.source.failure.getD { message := [] }

/-- `position`. -/
def position (s : Run) : Position :=
  match s.frame.look with
  | some word => tokenPosition word.token
  | none =>
    diagnosticPosition s.parser.machine.source (s.parser.machine.lexerAt s.depth)
      s.parser.machine.source.position

/-! ### Failures -/

/-- The bytes behind the line of a failure, for the draining of here-documents. -/
def behindLine (s : Run) : Bytes :=
  let unread := s.parser.machine.source.unread
  match s.frame.look with
  | some word =>
    if word.token.kind = .newline then unread else (unread.dropWhile (· != byteOf '\n')).drop 1
  | none => (unread.dropWhile (· != byteOf '\n')).drop 1

/-- The here-documents of a frame. -/
def documentsOf (s : Run) (frame : Frame) : List Document :=
  frame.documents.filterMap fun i => s.documents[i]?

/-- `save_recovery`: the delimiters still expected, innermost frame first. -/
def saveRecovery (s : Run) : Run :=
  if s.parser.final || s.parser.failureResult != .error ||
      (s.parser.failure.map Failure.systemErrno).getD 0 != 0 then s
  else
    let documents := (s.frame :: s.parents).flatMap s.documentsOf
    if documents.isEmpty then s
    else
      { s with parser := { s.parser with
          recovery := documents.map fun document => { document with body := none },
          recoveryBytes := s.behindLine } }

/-- `fail_at`. -/
def failAt (s : Run) (result : ParseResult) (message : Bytes) (number : ℕ) (position : Position) : Run :=
  if s.parser.failure.isSome then s
  else
    saveRecovery { s with parser := { s.parser with
      failure := some
        { message, systemErrno := number, status := if number = 0 then 2 else 1, position },
      failureResult := result } }

/-- `adopt_error`. -/
def adoptError (s : Run) (error : Failure) : Run :=
  if s.parser.failure.isSome then s
  else
    let error := if error.position.line = 0 then { error with position := s.position } else error
    let result :=
      if error.systemErrno = eintr then .interrupted
      else if s.parser.final && error.systemErrno = 0 &&
          (ascii "unterminated ").isPrefixOf error.message then .incomplete
      else .error
    saveRecovery { s with parser := { s.parser with failure := some error, failureResult := result } }

/-- `clear_recovery`, and the failure forgotten. -/
def forget (s : Run) : Run :=
  { s with parser := { s.parser with recovery := [], recoveryBytes := [], failure := none } }

/-! ### Reading -/

/-- `feed_line`; the error is to be adopted. -/
def feedLine (s : Run) : Option Failure × Run :=
  let (result, input) := s.parser.input.readLine
  let s := { s with parser := { s.parser with input } }.note (.read result)
  let feed := fun (bytes : Bytes) (final : Bool) =>
    let s := { s with parser := { s.parser with final } }
    match s.parser.machine.feed bytes final with
    | (true, machine) => (none, s.onMachine machine)
    | (false, machine) => (some (lexerError machine), s.onMachine machine)
  match result with
  | .error error | .interrupted error => (some error, s)
  | .eof => feed [] true
  | .line data => feed data false

/-- `discard_replayed_substitutions`. -/
def discardReplayed (s : Run) : Run :=
  match s.parser.machine.commandFragment s.depth with
  | none => s
  | some first =>
    let kept := (s.frame.pending.reverse.dropWhile fun sub => decide (first ≤ sub.fragment)).reverse
    { s with frame := { s.frame with pending := kept } }

/-- A substitution with the range of its fragment. -/
def settle (token : Token) (sub : Substitution) : Substitution :=
  let f := token.fragments[sub.fragment]?
  .mk sub.fragment ((f.map Fragment.begin).getD 0) ((f.map Fragment.stop).getD 0) sub.body

/-- A token comes into the lookahead. -/
def publish (s : Run) (token : Token) : Run :=
  let word : Word := .mk token (s.frame.pending.map (settle token))
  { s with frame := { s.frame with look := some word, pending := [] } }.note (.token s.depth word)

/-- A candidate was put back. -/
def replayed (s : Run) : Run :=
  (s.note (.replayed s.parser.machine.source.unread)).discardReplayed

/-- `csh_lexer_next` with what `peek_raw` does at once about its answer. -/
def next (d : Decoder) (s : Run) : LexResult × Run :=
  let (result, machine) := s.parser.machine.lexerNext d s.depth
  let s := s.onMachine machine
  match result with
  | .token token => (result, s.publish token)
  | .eof => (result, { s with frame := { s.frame with eof := true } })
  | .replay => (result, s.replayed)
  | _ => (result, s)

/-- `csh_lexer_context` and the diagnostic position of the substitution it opens. -/
def commandOpening (s : Run) : Position :=
  let machine := s.parser.machine
  let l := machine.lexerAt s.depth
  let opening :=
    if machine.source.unread = [byteOf '\\'] then
      if l.active then l.spellingPosition else machine.source.position
    else
      match l.frames with
      | frame :: _ => (l.fragments[frame.fragment]?.map Fragment.start).getD {}
      | [] => if l.active then l.start else machine.source.position
  diagnosticPosition machine.source l opening

/-- `csh_lexer_command_begin`, with a frame for the new lexer. -/
def beginCommand (s : Run) : Option Failure × Run :=
  match s.parser.machine.commandBegin s.depth with
  | (true, machine) =>
    (none, { s.onMachine machine with frame := {}, parents := s.frame :: s.parents })
  | (false, machine) => (some (lexerError machine), s.onMachine machine)

/-- `frame_destroy` on the innermost frame. -/
def popFrame (s : Run) : Run :=
  match s.parents with
  | parent :: rest => { s with frame := parent, parents := rest }
  | [] => s

/-- `csh_lexer_command_end`, with the end of the frame and the new substitution. -/
def endCommand (body : Ast) (s : Run) : Option Failure × Run :=
  let closing := ((s.frame.look.map Word.token).getD { kind := .word, raw := [] })
  let s := s.popFrame
  let fragment := (s.parser.machine.commandFragment s.depth).getD 0
  match s.parser.machine.commandEnd s.depth closing with
  | (true, machine) =>
    (none, { s.onMachine machine with frame :=
      { s.frame with pending := s.frame.pending ++ [.mk fragment 0 0 body] } })
  | (false, machine) => (some (lexerError machine), s.onMachine machine)

/-- `csh_lexer_replay_arithmetic` behind a failed substitution. -/
def replay (s : Run) : Machine.Replay × Run :=
  let (result, machine) := s.parser.machine.replayArithmetic s.depth s.parser.failure
  let s := s.onMachine machine
  match result with
  | .refused => (result, s)
  | .failed => (result, s.forget)
  | .replayed => (result, s.forget.replayed)

/-! ### The lookahead -/

/-- `take`, `discard`. -/
def discard (s : Run) : Run := { s with frame := { s.frame with look := none, pending := [] } }

/-- `csh_lexer_follows_redirection`. -/
def followsRedirection (d : Decoder) (s : Run) : Bool × Run :=
  let (answer, machine) := s.parser.machine.followsRedirection d
  (answer, s.onMachine machine)

/-- `csh_aliases_get`. -/
def aliasesGet (table : Bytes → Option Bytes) (name : Bytes) : Option Bytes :=
  if Alias.validName name then table name else none

/-- The alias that replaces a token, unless one of that name is being read. -/
def aliasFor (table : Bytes → Option Bytes) (machine : Machine) (token : Token) :
    Option (Bytes × Bytes) :=
  match plainText token with
  | none => none
  | some name =>
    match aliasesGet table name with
    | none => none
    | some value => if machine.aliasActive name then none else some (name, value)

/-- A token is looked up among the aliases. -/
def lookup (place : Place) (token : Token) (table : Bytes → Option Bytes) (s : Run) :
    Option (Bytes × Bytes) × Run :=
  (aliasFor table s.parser.machine token, s.note (.lookup place token table s.parser.machine))

/-- `csh_lexer_alias_push` and the end of the lookahead it replaces. -/
def pushAlias (place : Place) (token : Token) (table : Bytes → Option Bytes) (name value : Bytes)
    (s : Run) : Option Failure × Run :=
  match s.parser.machine.aliasPush s.depth token name value with
  | (true, machine) =>
    (none, (s.onMachine machine).discard.note
      (.replaced place token table s.parser.machine name value))
  | (false, machine) => (some (lexerError machine), s.onMachine machine)

/-! ### Here-documents -/

/-- The end of `prepare_document`. -/
def addDocument (document : Document) (s : Run) : ℕ × Run :=
  (s.documents.length,
    { s with documents := s.documents ++ [document],
             frame := { s.frame with documents := s.frame.documents ++ [s.documents.length] } })

/-- A field of a here-document is set. -/
def setDocument (index : ℕ) (f : Document → Document) (s : Run) : Run :=
  { s with documents := s.documents.modify index f }

/-- `csh_lexer_skip_raw` on the next bytes. -/
def skipLine (length : ℕ) (s : Run) : Option Failure × Run :=
  match s.parser.machine.skipRaw s.depth length with
  | (true, machine) =>
    (none, (s.onMachine machine).note (.skipped (s.parser.machine.source.unread.take length)))
  | (false, machine) => (some (lexerError machine), s.onMachine machine)

/-- The end of `collect_documents`. -/
def clearDocuments (s : Run) : Run := { s with frame := { s.frame with documents := [] } }

end Run

end Parse
end CShell
