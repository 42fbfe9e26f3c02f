import CShell.Lexer.Tracking

/-!
# Runs of the lexer and what they read

A run is any sequence of interface calls.  Beside the machine, a session keeps a
ledger: for every lexer of the chain the tokens it has published, in order, with
the substitutions each of them encloses, and the raw lines it was told to skip.
The entries of a lexer *tile* the input when they stand in order and only blanks,
continuations and a comment lie between them.

## Main definitions

* `Call`, `Session.perform`, `Session.run` — runs.
* `Item`, `Substitution`, `Record` — the ledger.
* `Gap` — what may lie between two entries.
* `Tiles origin J a b items` — the items cover the input from `a` to `b`.

## References

`include/cshell/lexer.h`.
-/

namespace CShell
namespace Lexical

open Machine

/-! ### The ledger -/

mutual

/-- An entry of the ledger: a published token with the substitutions it encloses, or
raw bytes that were skipped. -/
inductive Item
  | token (t : Token) (inner : List Substitution)
  | skipped (start stop : ℕ)

/-- A command substitution: the index of its fragment, the place its lexer was
created, the place it was closed, and what its lexer read. -/
inductive Substitution
  | mk (fragment born stop : ℕ) (items : List Item)

end

namespace Substitution

def fragment : Substitution → ℕ
  | mk fragment _ _ _ => fragment

def born : Substitution → ℕ
  | mk _ born _ _ => born

def stop : Substitution → ℕ
  | mk _ _ stop _ => stop

def items : Substitution → List Item
  | mk _ _ _ items => items

end Substitution

/-- What one lexer has read: the place it was created, its entries, and the
substitutions of the word it is reading. -/
structure Record where
  born : ℕ
  items : List Item := []
  pending : List Substitution := []

/-- Blanks and continuations. -/
inductive Separators : Bytes → Prop
  | nil : Separators []
  | blank {w : Bytes} {byte : UInt8} (h : Separators w)
      (hb : byte = byteOf ' ' ∨ byte = byteOf '\t') : Separators (w ++ [byte])
  | continuation {w : Bytes} (h : Separators w) : Separators (w ++ [byteOf '\\', byteOf '\n'])

/-- What may lie between two entries: blanks and continuations, and a comment behind
them. -/
def Gap (w : Bytes) : Prop :=
  ∃ separators comment, w = separators ++ comment ∧ Separators separators ∧
    (comment = [] ∨ comment.head? = some (byteOf '#') ∧ byteOf '\n' ∉ comment)

/-- The token at `a` holds the substitution in one of its command fragments, up to the
parenthesis that closes it. -/
def Encloses (a : ℕ) (fragments : List Fragment) (s : Substitution) : Prop :=
  (∃ f, fragments[s.fragment]? = some f ∧ f.kind = .command ∧ a + f.begin ≤ s.born ∧
    s.stop = a + f.stop) ∧
    ∃ t inner, s.items.getLast? = some (.token t inner) ∧ t.kind = .rparen

variable (origin : Position) (J : Bytes)

mutual

/-- An entry covers the input from `a` to `b`. -/
inductive Occupies : ℕ → ℕ → Item → Prop
  | token {a b : ℕ} {t : Token} {inner : List Substitution} (h : TokenAt origin J a b t)
      (he : ∀ s ∈ inner, Encloses a t.fragments s)
      (hi : ∀ s ∈ inner, Tiles s.born s.stop s.items) : Occupies a b (.token t inner)
  | skipped {a b : ℕ} (h : a ≤ b) : Occupies a b (.skipped a b)

/-- The entries of one lexer cover the input from `a` to `b`, in order and with gaps
between them. -/
inductive Tiles : ℕ → ℕ → List Item → Prop
  | nil (a : ℕ) : Tiles a a []
  | snoc {a b c e : ℕ} {items : List Item} {item : Item} (h : Tiles a b items) (hle : b ≤ c)
      (hg : Gap (J.extract b c)) (hi : Occupies c e item) : Tiles a e (items ++ [item])

end

/-! ### Runs -/

/-- A call of the interface; lexers are named by their depth. -/
inductive Call
  | feed (bytes : Bytes) (final : Bool)
  | next (depth : ℕ)
  | commandBegin (depth : ℕ)
  | commandEnd (depth : ℕ) (closing : Token)
  | replay (depth : ℕ) (error : Option Failure)
  | aliasPush (depth : ℕ) (token : Token) (name value : Bytes)
  | skipRaw (depth length : ℕ)
  | followsRedirection
  deriving DecidableEq, Repr

/-- A machine with the bytes it was fed and its ledger. -/
structure Session where
  origin : Position
  machine : Machine
  fed : Bytes := []
  records : List Record

namespace Session

/-- How much of the input has been consumed, outside aliases. -/
def consumed (s : Session) : ℕ := s.machine.source.position.offset - s.origin.offset

/-- A fresh lexer, at a position that need not be the beginning of the input. -/
def start (name : Bytes) (origin : Position) (document : Bool) : Session :=
  { origin, machine := Machine.create name origin document, records := [{ born := 0 }] }

end Session

/-- A token is published. -/
def Record.publish (r : Record) (t : Token) : Record :=
  { r with items := r.items ++ [.token t r.pending], pending := [] }

/-- The substitutions from a fragment on are discarded with a candidate. -/
def Record.rewind (r : Record) (first : Option ℕ) : Record :=
  { r with pending := r.pending.filter fun s => decide (s.fragment < first.getD 0) }

/-- A substitution is closed: the ledger of its lexer goes to the word around it. -/
def closeRecord (fragment stop : ℕ) : List Record → List Record
  | child :: parent :: rest =>
    { parent with pending := parent.pending ++ [.mk fragment child.born stop child.items] } :: rest
  | records => records

namespace Session

/-- One call. -/
def perform (d : Decoder) (s : Session) : Call → Session
  | .feed bytes final =>
    match s.machine.feed bytes final with
    | (true, machine) => { s with machine, fed := s.fed ++ bytes }
    | (false, machine) => { s with machine }
  | .next depth =>
    match s.machine.lexerNext d depth with
    | (.token t, machine) =>
      { s with machine, records := s.records.modifyHead fun r => r.publish t }
    | (.replay, machine) =>
      { s with machine, records := s.records.modifyHead fun r =>
          r.rewind (machine.commandFragment machine.depth) }
    | (_, machine) => { s with machine }
  | .commandBegin depth =>
    match s.machine.commandBegin depth with
    | (true, machine) => { s with machine, records := { born := s.consumed } :: s.records }
    | (false, machine) => { s with machine }
  | .commandEnd depth closing =>
    match s.machine.commandEnd depth closing with
    | (true, machine) =>
      { s with machine, records :=
          closeRecord ((s.machine.commandFragment depth).getD 0) s.consumed s.records }
    | (false, machine) => { s with machine }
  | .replay depth error =>
    match s.machine.replayArithmetic depth error with
    | (.replayed, machine) =>
      { s with machine, records := (s.records.drop (s.machine.depth - depth)).modifyHead fun r =>
          r.rewind (machine.commandFragment machine.depth) }
    | (_, machine) => { s with machine }
  | .aliasPush depth token name value =>
    { s with machine := (s.machine.aliasPush depth token name value).2 }
  | .skipRaw depth length =>
    match s.machine.skipRaw depth length with
    | (true, machine) =>
      { s with machine, records := s.records.modifyHead fun r =>
          { r with items := r.items ++ [.skipped s.consumed (s.consumed + length)] } }
    | (false, machine) => { s with machine }
  | .followsRedirection => { s with machine := (s.machine.followsRedirection d).2 }

/-- A run. -/
def run (d : Decoder) (s : Session) (calls : List Call) : Session := calls.foldl (perform d) s

end Session
end Lexical
end CShell
