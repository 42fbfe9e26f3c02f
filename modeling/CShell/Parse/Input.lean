import CShell.Lexer.Machine

/-!
# Reading lines

The parser asks for one physical line at a time.  The source behind it is a sequence
of bytes in which a read can also be interrupted or fail; an interrupted line is
dropped, and a failure is final.

The hooks of the input (a wait before a read, an echo of the line, a second chance at
the end of the file) are taken to be absent, and counters that pass `SIZE_MAX` are
left out.

## Main definitions

* `Incoming`, `Input` — the source and what has been taken from it.
* `Input.readLine` — `csh_input_read_line`.

## References

`src/input.c`.
-/

namespace CShell
namespace Parse

/-- `EINTR`. -/
def eintr : ℕ := 4

/-- What the next read of one byte will do. -/
inductive Incoming
  | byte (b : UInt8)
  | interrupted
  | failed (number : ℕ)
  deriving DecidableEq, Repr, Inhabited

/-- `struct csh_input`. -/
structure Input where
  name : Bytes := []
  incoming : List Incoming
  position : Position := { line := 1, column := 1 }
  ended : Bool := false
  failure : Option Failure := none
  deriving DecidableEq, Repr, Inhabited

/-- `enum csh_input_result`. -/
inductive ReadResult
  | line (data : Bytes)
  | eof
  | interrupted (error : Failure)
  | error (error : Failure)
  deriving DecidableEq, Repr, Inhabited

namespace Input

/-- The loop of `csh_input_read_line`, with the part of the line read so far. -/
def readLoop (input : Input) (line : Bytes) : List Incoming → Position → ReadResult × Input
  | [], position =>
    if line = [] then (.eof, { input with incoming := [], position, ended := true })
    else (.line line, { input with incoming := [], position, ended := true })
  | .byte b :: rest, position =>
    let position := position.advance b
    if b = byteOf '\n' then (.line (line ++ [b]), { input with incoming := rest, position })
    else readLoop input (line ++ [b]) rest position
  | .interrupted :: rest, position =>
    let error : Failure :=
      { message := ascii "input interrupted", systemErrno := eintr, status := 128, position }
    -- the terminal has dropped the rest of the line too
    let position := if line = [] then position else { position with line := position.line + 1, column := 1 }
    (.interrupted error, { input with incoming := rest, position })
  | .failed number :: rest, position =>
    let error : Failure :=
      { message := ascii "cannot read input", systemErrno := number, status := 128, position }
    (.error error, { input with incoming := rest, position, failure := some error })

/-- `csh_input_read_line`. -/
def readLine (input : Input) : ReadResult × Input :=
  match input.failure with
  | some error => (.error error, input)
  | none =>
    if input.ended then (.eof, input)
    else input.readLoop [] input.incoming input.position

end Input

end Parse
end CShell
