import CShell.Parse.Productions

/-!
# The interface of the parser

A parser answers calls: `next` returns the tree of the next complete command, and
`recover` makes a parser usable again behind a syntax error, once the here-documents
of the failed command are drained.  An interrupted read drops the command that was
being read and leaves the parser usable.

A run is a list of calls on a parser that was created for an input.  A call that would
need more rounds than it is given does not return, and the run ends.

## Main definitions

* `Session` — a parser with the events of its run so far.
* `Session.next`, `Session.recover`, `Session.setAliases` — the calls.
* `Session.run` — a list of calls.

## References

`src/parser.c`.
-/

namespace CShell
namespace Parse

open Lexical

/-- A parser and what its run has done. -/
structure Session where
  parser : Parser
  events : List Event := []

/-- A call of the interface. -/
inductive Call
  /-- `csh_parser_next`, with the rounds its loops may take and the native stack. -/
  | next (rounds stack : ℕ)
  /-- `csh_parser_recover`. -/
  | recover (rounds : ℕ)
  /-- `csh_parser_set_aliases`. -/
  | setAliases (table : Option (Bytes → Option Bytes))

/-- What a call returns. -/
inductive Answer
  | next (result : ParseResult) (tree : Option Ast)
  /-- Nothing was done, or the parser is usable again, or it is not. -/
  | recover (done : Option Bool)
  | done

namespace Session

/-- `csh_parser_create`. -/
def create (input : Input) : Session :=
  { parser := { input, machine := .create input.name { line := 1, column := 1 } false } }

/-- The session behind a run. -/
def ofRun (s : Run) : Session := { parser := s.parser, events := s.events }

/-- A run of the root frame. -/
def toRun (s : Session) : Run := { parser := s.parser, events := s.events }

/-- The parser of nested lists, with room for `stack` nested commands. -/
def nestedList (d current : Decoder) (rounds : ℕ) : ℕ → Option (Closing → Bool → Position → P Ast)
  | 0 => none
  | stack + 1 => some (parseList d current rounds stack)

/-- The part of `csh_parser_next` that reads. -/
def command (d current : Decoder) (rounds stack : ℕ) : P (Option Ast) := do
  match ← skipNewlines d rounds (nestedList d current rounds stack) (.command []) with
  | none => pure none
  | some _ => some <$> parseList d current rounds stack .nothing false (← position)

/-- `csh_parser_next`.  The lexer of a failed parse is destroyed; it stays in the state
and is not used again. -/
def next (d current : Decoder) (rounds stack : ℕ) (s : Session) : Option (Answer × Session) :=
  if s.parser.failure.isSome then some (.next s.parser.failureResult none, s)
  else if s.parser.eof then some (.next .eof none, s)
  else
    match (command d current rounds stack).run s.toRun with
    | (.ok none, r) =>
      some (.next .eof none, ofRun { r with parser := { r.parser with eof := true } })
    | (.ok (some tree), r) => some (.next .tree (some tree), ofRun r)
    | (.error .exhausted, _) => none
    | (.error .failed, r) =>
      if r.parser.failureResult = .interrupted then
        -- the new lexer begins at the beginning of the source
        some (.next .interrupted none, ofRun { r with parser := { r.parser with
          machine := .create r.parser.input.name { line := 1, column := 1 } false, failure := none } })
      else some (.next r.parser.failureResult none, ofRun r)

/-- `csh_parser_recover`. -/
def recover (d : Decoder) (rounds : ℕ) (s : Session) : Option (Answer × Session) :=
  let p := s.parser
  let machine : Machine := .create p.input.name p.input.position false
  if p.failure.isNone || p.failureResult != .error ||
      (p.failure.map Failure.systemErrno).getD 0 != 0 || p.final || p.input.failure.isSome then
    some (.recover none, s)
  else
    let (fed, machine) :=
      if p.recoveryBytes.isEmpty then (true, machine) else machine.feed p.recoveryBytes false
    if !fed then
      some (.recover (some false), { s with parser := { p with
        machine, failure := some (Run.lexerError machine), recovery := [], recoveryBytes := [] } })
    else
      let r : Run :=
        { parser := { p with machine, failure := none, recovery := [] },
          frame := { documents := List.range p.recovery.length },
          documents := p.recovery, events := s.events }
      match (collectDocuments d rounds true).run r with
      | (.ok (), r) =>
        let machine :=
          if p.recoveryBytes.isEmpty then r.parser.machine
          else
            let machine : Machine := .create r.parser.input.name r.parser.input.position false
            if r.parser.final then (machine.feed [] true).2 else machine
        some (.recover (some true), ofRun { r with parser := { r.parser with
          machine, recovery := [], recoveryBytes := [] } })
      | (.error .exhausted, _) => none
      | (.error .failed, r) =>
        some (.recover (some false), ofRun { r with parser := { r.parser with
          failureResult := .error, recovery := [], recoveryBytes := [] } })

/-- `csh_parser_set_aliases`. -/
def setAliases (table : Option (Bytes → Option Bytes)) (s : Session) : Session :=
  { s with parser := { s.parser with aliases := table } }

/-- One call. -/
def perform (d current : Decoder) (s : Session) : Call → Option (Answer × Session)
  | .next rounds stack => s.next d current rounds stack
  | .recover rounds => s.recover d rounds
  | .setAliases table => some (.done, s.setAliases table)

/-- A run: the answers to a list of calls, and the session behind them. -/
def run (d current : Decoder) (s : Session) : List Call → Option (List Answer × Session)
  | [] => some ([], s)
  | call :: rest =>
    match s.perform d current call with
    | none => none
    | some (answer, s) => (s.run d current rest).map fun r => (answer :: r.1, r.2)

end Session

end Parse
end CShell
