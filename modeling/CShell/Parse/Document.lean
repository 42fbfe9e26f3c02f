import CShell.Expand.Prepare
import CShell.Parse.Interface

/-!
# Here-document bodies

A body that is subject to expansion is read once, by the lexer of ordinary words in its
document mode and by the lookahead of the parser, which parses the substitutions in it.
The word it makes is expanded to one field.

## Main definitions

* `parserDocument` — `csh_parser_document`.
* `redirectDocument` — the here-document branch of `csh_command_redirect`.

## References

`src/parser.c`, `src/prepare.c`.
-/

namespace CShell
namespace Parse

open Lexical

variable {F : Type}

/-- `csh_parser_document`, with the rounds its loops may take and the native stack; an
absent answer is a loop that would go on. -/
def parserDocument (d current : Decoder) (rounds stack : ℕ) (bytes : Bytes) :
    Option (Except Failure Word) :=
  match (Machine.create (ascii "here-document") { line := 1, column := 1 } true).feed bytes true with
  | (false, machine) => some (.error (Run.lexerError machine))
  | (true, machine) =>
    let parser : Parser := { input := { incoming := [] }, machine, final := true }
    match (peekRaw d rounds (Session.nestedList d current rounds stack)).run { parser } with
    | (.ok none, _) => some (.ok (.mk { kind := .word, raw := [] } []))
    | (.ok (some word), _) => some (.ok word)
    | (.error .failed, r) => some (.error (r.parser.failure.getD { message := [] }))
    | (.error .exhausted, _) => none

/-- The data of a here-document in `csh_command_redirect`.  The executor runs the
substitutions of a word by their trees. -/
def redirectDocument (env : ExpandEnv) (rounds parserStack stack : ℕ)
    (execute : Word → Substitute F) (s : State F) (document : Document) :
    Option (Except PrepareError Bytes × State F) :=
  match document.body with
  | none => some (.error (.make "here-document body has not been collected" 0), s)
  | some body =>
    if document.delimiterQuoted then some (.ok body, s)
    else
      match parserDocument env.lexical env.current rounds parserStack body with
      | none => none
      | some (.error error) => some (.error { error with }, s)
      | some (.ok word) => some (prepareScalar env stack (execute word) s word.token 0 .heredoc)

end Parse
end CShell
