import CShell.Expand.Word
import CShell.Lexer.Scan
import CShell.Parse.Input

/-!
# Preparing words for a command

`prepare.c` expands the words of a command in the executor: an expansion that fails
anywhere puts the state back, and an operand that needs one value takes it from the
single field.  A value that begins behind a `NAME=` prefix is cut out of its word, the
fragments keeping their places in the list.

The executor that runs a substitution is a parameter, and so is the memory, which is
taken to suffice.

## Main definitions

* `cutWord` — the value behind a prefix.
* `prepareFields`, `prepareScalar` — `expand` and `scalar`.

## References

`src/prepare.c`.
-/

namespace CShell

open Expand Lexical

variable {F : Type}

/-- `struct csh_error` with its detail. -/
structure PrepareError extends Failure where
  detail : Bytes := []
  deriving DecidableEq, Repr

/-- `fail`. -/
def PrepareError.make (message : String) (number : ℕ) : PrepareError :=
  { message := ascii message, systemErrno := number, status := if number = 0 then 2 else 1 }

/-- `EIO`. -/
def eio : ℕ := 5

/-- The error number of a failed expansion. -/
def expandErrno : ExpandResult → ℕ
  | .nomem | .resource => enomem
  | .io => eio
  | .interrupted => Parse.eintr
  | _ => 0

/-- A word behind its first `offset` bytes: fragments of the prefix are left behind as
empty root text. -/
def cutWord (token : Token) (offset : ℕ) : Token :=
  { token with
    raw := token.raw.drop offset,
    fragments := token.fragments.map fun f =>
      if f.stop ≤ offset then
        { f with kind := .text, parent := none, quote := .none, begin := 0, stop := 0 }
      else { f with begin := f.begin - offset, stop := f.stop - offset } }

/-- The callback of the executor, as `csh_expand_word` is given it. -/
abbrev Substitute (F : Type) :=
  State F → Token → ℕ → ExpandError → ExpandResult × Bytes × ExpandError

/-- The end of `expand` behind a failed expansion. -/
def expandFailure (result : ExpandResult) (error : ExpandError) : PrepareError :=
  { PrepareError.make "word expansion failed" (expandErrno result) with
    detail := error.message, position := error.position }

/-- `expand`: the fields of a word behind `offset` bytes, and the state. -/
def prepareFields (env : ExpandEnv) (stack : ℕ) (substitute : Substitute F) (s : State F)
    (token : Token) (offset : ℕ) (mode : ExpandContext) :
    Except PrepareError (List Bytes) × State F :=
  if token.raw.length < offset then (.error (.make "invalid assignment word" 0), s)
  else
    let token := if offset = 0 then token else cutWord token offset
    match s.save with
    | none => (.error (.make "cannot allocate command expansion" enomem), s)
    | some checkpoint =>
      let r := expandWord env stack s token { context := mode, substitute := some substitute }
      if r.result = .ok then
        match expandFields env r.state r.out with
        | (.ok, out, _) => (.ok out.fields, r.state)
        | (result, _, error) => (.error (expandFailure result error), r.state.restore checkpoint)
      else (.error (expandFailure r.result r.error), r.state.restore checkpoint)

/-- `scalar`. -/
def prepareScalar (env : ExpandEnv) (stack : ℕ) (substitute : Substitute F) (s : State F)
    (token : Token) (offset : ℕ) (mode : ExpandContext) : Except PrepareError Bytes × State F :=
  match prepareFields env stack substitute s token offset mode with
  | (.error e, s) => (.error e, s)
  | (.ok [], s) => (.ok [], s)
  | (.ok [value], s) => (.ok value, s)
  | (.ok _, s) => (.error (.make "expansion requires one field" 0), s)

end CShell
