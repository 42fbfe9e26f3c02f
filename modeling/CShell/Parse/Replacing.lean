import CShell.Parse.Keeping

/-!
# Where aliases are replaced

Whichever production looks at a token first decides whether it can be an alias.  Every
word that is looked up, and every alias that replaces one, is an event of the run; that
each of them is where an alias may be is an invariant of the operations, so of every
production and of every call.

A word is looked up where the lexer marked it `alias_eligible`; where a simple command
has its name, behind nothing but assignments and redirections; and wherever
`skip_newlines` is used, which is at three places of a `for` or `case` command and
behind the head of a function as well.

## Main definitions

* `Allowed` — the events of a disciplined run.
* `Disciplined` — all events are allowed, and the table is one that was set.

## Main results

* `preserved_disciplined` — every operation is disciplined.
* `Session.Disciplined.perform` — so is every call.
* `Session.aliases_replaced` — **in no run is a token replaced anywhere else, or by another
  value than that of its name in a table that was set.**

## References

`src/parser.c` (`peek_alias`, `skip_newlines`), `docs/aliases.md`.
-/

namespace CShell
namespace Parse

open Lexical

/-- A word is looked up where an alias may be. -/
structure Allowed.Lookup (tables : Set (Bytes → Option Bytes)) (place : Place) (token : Token)
    (table : Bytes → Option Bytes) : Prop where
  set : table ∈ tables
  kind : token.kind = .word
  reserved : Parse.reserved token = false
  eligible : token.aliasEligible = true ∨ place.ofCommand ∨ place.loose = true

/-- An event of a disciplined run in which `tables` were set. -/
def Allowed (tables : Set (Bytes → Option Bytes)) : Event → Prop
  | .lookup place token table _ => Allowed.Lookup tables place token table
  | .replaced place token table machine name value =>
    Allowed.Lookup tables place token table ∧ Run.aliasFor table machine token = some (name, value)
  | _ => True

/-- What happened is allowed, and the table is one that was set. -/
structure Disciplined (tables : Set (Bytes → Option Bytes)) (events : List Event)
    (aliases : Option (Bytes → Option Bytes)) : Prop where
  events : ∀ e ∈ events, Allowed tables e
  aliases : ∀ table ∈ aliases, table ∈ tables

/-- One more event. -/
theorem Disciplined.note {tables : Set (Bytes → Option Bytes)} {events : List Event}
    {aliases : Option (Bytes → Option Bytes)} (h : Disciplined tables events aliases) {e : Event}
    (he : Allowed tables e) : Disciplined tables (events ++ [e]) aliases := by
  refine ⟨fun e' he' => ?_, h.aliases⟩
  rcases List.mem_append.mp he' with hmem | hmem
  · exact h.events e' hmem
  · rw [List.mem_singleton.mp hmem]
    exact he

/-! ### Operations -/

/-- A parse whose events are allowed so far. -/
abbrev Run.Disciplined (tables : Set (Bytes → Option Bytes)) (s : Run) : Prop :=
  Parse.Disciplined tables s.events s.parser.aliases

variable {d current : Decoder} {tables : Set (Bytes → Option Bytes)}

namespace Run.Disciplined

variable {s : Run} (h : s.Disciplined tables)
include h

theorem saveRecovery : s.saveRecovery.Disciplined tables := by
  unfold Run.saveRecovery
  dsimp only
  split
  · exact h
  · split <;> exact h

theorem failAt (result : ParseResult) (message : Bytes) (number : ℕ) (position : Position) :
    (s.failAt result message number position).Disciplined tables := by
  unfold Run.failAt
  split
  · exact h
  · apply saveRecovery
    exact h

theorem adoptError (error : Failure) : (s.adoptError error).Disciplined tables := by
  unfold Run.adoptError
  split
  · exact h
  · apply saveRecovery
    exact h

theorem feedLine : s.feedLine.2.Disciplined tables := by
  have hread : Parse.Disciplined tables (s.events ++ [.read s.parser.input.readLine.1]) s.parser.aliases :=
    h.note trivial
  unfold Run.feedLine
  dsimp only
  split
  · exact hread
  · exact hread
  · split <;> exact hread
  · split <;> exact hread

theorem replayed : s.replayed.Disciplined tables := by
  have hnoted : (s.note (.replayed s.parser.machine.source.unread)).Disciplined tables := h.note trivial
  unfold Run.replayed Run.discardReplayed
  split <;> exact hnoted

theorem next : (s.next d).2.Disciplined tables := by
  unfold Run.next
  dsimp only
  split
  · next token _ => exact Parse.Disciplined.note h (e := .token s.depth (.mk token _)) trivial
  · exact h
  · apply replayed
    exact h
  · exact h

theorem beginCommand : s.beginCommand.2.Disciplined tables := by
  unfold Run.beginCommand
  split <;> exact h

theorem popFrame : s.popFrame.Disciplined tables := by
  unfold Run.popFrame
  split <;> exact h

theorem endCommand (body : Ast) : (s.endCommand body).2.Disciplined tables := by
  unfold Run.endCommand
  dsimp only
  split <;> exact popFrame h

theorem replay : s.replay.2.Disciplined tables := by
  unfold Run.replay
  dsimp only
  split
  · exact h
  · exact h
  · apply replayed
    exact h

theorem skipLine (length : ℕ) : (s.skipLine length).2.Disciplined tables := by
  unfold Run.skipLine
  split
  · exact Parse.Disciplined.note h (e := .skipped _) trivial
  · exact h

/-- Where the parser looks a word up, it may. -/
theorem allowed {place : Place} {token : Token} {table : Bytes → Option Bytes}
    (hlooks : s.Looks place token table) : Allowed.Lookup tables place token table :=
  ⟨h.aliases table hlooks.aliases, hlooks.kind, hlooks.reserved, hlooks.eligible⟩

/-- A word is replaced by its alias. -/
theorem pushAlias {place : Place} {token : Token} {table : Bytes → Option Bytes} {name value : Bytes}
    (hlooks : s.Looks place token table)
    (halias : Run.aliasFor table s.parser.machine token = some (name, value)) :
    (s.pushAlias place token table name value).2.Disciplined tables := by
  have hallowed : Allowed tables (.replaced place token table s.parser.machine name value) :=
    ⟨allowed h hlooks, halias⟩
  unfold Run.pushAlias
  split
  · exact Parse.Disciplined.note h hallowed
  · exact h

end Run.Disciplined

/-- **Every operation is disciplined.** -/
theorem preserved_disciplined (d : Decoder) (tables : Set (Bytes → Option Bytes)) :
    Preserved d (Run.Disciplined tables) where
  failAt _ _ _ _ _ h := h.failAt _ _ _ _
  adoptError _ _ h := h.adoptError _
  feedLine _ _ h := h.feedLine
  next _ _ h := h.next
  beginCommand _ _ h := h.beginCommand
  endCommand _ body _ _ _ _ h := h.endCommand body
  popFrame _ _ _ _ _ _ h := h.popFrame
  replay _ _ _ h := h.replay
  discard _ h := h
  followsRedirection _ h := h
  lookup _ place token table hlooks h :=
    h.note (e := .lookup place token table _) (h.allowed hlooks)
  pushAlias _ _ _ _ _ _ hlooks halias h := h.pushAlias hlooks halias
  addDocument _ _ h := h
  setDocument _ _ _ h := h
  skipLine _ length _ h := h.skipLine length
  clearDocuments _ h := h

/-- The alias that a word has. -/
theorem Run.aliasFor_eq_some {table : Bytes → Option Bytes} {machine : Machine} {token : Token}
    {name value : Bytes} (h : aliasFor table machine token = some (name, value)) :
    plainText token = some name ∧ Alias.validName name = true ∧ table name = some value ∧
      machine.aliasActive name = false := by
  unfold aliasFor aliasesGet at h
  split at h
  · cases h
  · next text htext =>
    split at h
    · cases h
    · next value' hvalue =>
      split at hvalue
      · next hvalid =>
        split at h
        · cases h
        · next hactive =>
          cases h
          exact ⟨htext, hvalid, hvalue, Bool.eq_false_iff.mpr hactive⟩
      · cases hvalue

/-! ### Calls -/

/-- What keeps a run disciplined does so however it ends. -/
theorem disciplined_of_meets {α : Type} {A : Run → Prop} {x : P α} {ps : List Frame} {s s' : Run}
    {r : Except Stop α}
    (hx : Program.Meets A x (fun _ => At (Run.Disciplined tables) ps) (Halts (Run.Disciplined tables) ps))
    (hs : A s) (hrun : x.run s = (r, s')) (hr : r ≠ .error .exhausted) : s'.Disciplined tables := by
  obtain ⟨hok, herror⟩ := hx s hs
  rcases r with e | a
  · cases e with
    | failed => exact (herror _ _ hrun rfl).1.1
    | exhausted => exact absurd rfl hr
  · exact (hok _ _ hrun).1

/-- The alias `name` of `table` replaces a token where an alias may be. -/
structure Replaced (calls : List Call) (place : Place) (token : Token) (table : Bytes → Option Bytes)
    (machine : Machine) (name value : Bytes) : Prop where
  set : .setAliases (some table) ∈ calls
  kind : token.kind = .word
  /-- No part of the token is quoted or expanded. -/
  text : plainText token = some name
  valid : Alias.validName name = true
  reserved : Parse.reserved token = false
  value : table name = some value
  inactive : machine.aliasActive name = false
  /-- The lexer marked it `alias_eligible`, or a command name is expected. -/
  eligible : token.aliasEligible = true ∨ place.ofCommand ∨ place.loose = true

namespace Session

/-- A session whose events are allowed so far. -/
abbrev Disciplined (tables : Set (Bytes → Option Bytes)) (s : Session) : Prop :=
  Parse.Disciplined tables s.events s.parser.aliases

variable {s s' : Session} {answer : Answer} {rounds stack : ℕ}

theorem Disciplined.next (h : s.Disciplined tables)
    (hnext : s.next d current rounds stack = some (answer, s')) : s'.Disciplined tables := by
  have hkeeps : Keeping (Run.Disciplined tables) [] (command d current rounds stack) :=
    command_keeping (preserved_disciplined d tables) stack
  unfold Session.next at hnext
  split at hnext
  · cases hnext
    exact h
  split at hnext
  · cases hnext
    exact h
  split at hnext
  · next r hrun =>
    cases hnext
    exact disciplined_of_meets (s := s.toRun) hkeeps ⟨h, rfl⟩ hrun nofun
  · next hrun =>
    cases hnext
    exact disciplined_of_meets (s := s.toRun) hkeeps ⟨h, rfl⟩ hrun nofun
  · cases hnext
  · next r hrun =>
    have hr : r.Disciplined tables := disciplined_of_meets (s := s.toRun) hkeeps ⟨h, rfl⟩ hrun nofun
    split at hnext
    · cases hnext
      exact hr
    · cases hnext
      exact hr

theorem Disciplined.recover (h : s.Disciplined tables)
    (hrecover : s.recover d rounds = some (answer, s')) : s'.Disciplined tables := by
  have hkeeps : Program.Meets (Idle (Run.Disciplined tables) []) (collectDocuments d rounds true)
      (fun _ => At (Run.Disciplined tables) []) (Halts (Run.Disciplined tables) []) :=
    (collectDocuments_meets (preserved_disciplined d tables) true).weaken (fun _ hs => hs)
      (fun _ _ hs => hs.1) fun _ _ hs => hs
  unfold Session.recover at hrecover
  dsimp only at hrecover
  -- what was kept of the failed command is fed to a new lexer
  generalize (if s.parser.recoveryBytes.isEmpty = true then _ else _ : Bool × Machine) = fed at hrecover
  split at hrecover
  · cases hrecover
    exact h
  split at hrecover
  · cases hrecover
    exact h
  split at hrecover
  · next hrun =>
    cases hrecover
    exact disciplined_of_meets hkeeps ⟨⟨h, rfl⟩, rfl⟩ hrun nofun
  · cases hrecover
  · next hrun =>
    cases hrecover
    exact disciplined_of_meets hkeeps ⟨⟨h, rfl⟩, rfl⟩ hrun nofun

/-- **Every call is disciplined**, in a run in which its table is set. -/
theorem Disciplined.perform (h : s.Disciplined tables) {call : Call}
    (htable : ∀ table, call = .setAliases (some table) → table ∈ tables)
    (hperform : s.perform d current call = some (answer, s')) : s'.Disciplined tables := by
  cases call with
  | next rounds stack => exact h.next hperform
  | recover rounds => exact h.recover hperform
  | setAliases table =>
    cases hperform
    refine ⟨h.events, ?_⟩
    rintro table' hmem
    exact htable table' (congrArg Call.setAliases hmem)

theorem Disciplined.run (h : s.Disciplined tables) {calls : List Call} {answers : List Answer}
    (htables : ∀ table, Call.setAliases (some table) ∈ calls → table ∈ tables)
    (hrun : s.run d current calls = some (answers, s')) : s'.Disciplined tables := by
  induction calls generalizing s answers with
  | nil =>
    cases hrun
    exact h
  | cons call calls ih =>
    rw [Session.run] at hrun
    split at hrun
    · cases hrun
    · next answer s₁ hperform =>
      obtain ⟨⟨answers, s₂⟩, hrest, hsame⟩ := Option.map_eq_some_iff.mp hrun
      cases hsame
      refine ih (h.perform ?_ hperform) (fun table hmem => ?_) hrest
      · rintro table rfl
        exact htables table List.mem_cons_self
      · exact htables table (List.mem_cons_of_mem _ hmem)

/-- **In no run is a token replaced anywhere else than where an alias may be**, and the
value is that of its name in a table that was set, while no alias of that name is read. -/
theorem aliases_replaced {input : Input} {calls : List Call} {answers : List Answer} {place : Place}
    {token : Token} {table : Bytes → Option Bytes} {machine : Machine} {name value : Bytes}
    (hrun : (create input).run d current calls = some (answers, s))
    (hreplaced : .replaced place token table machine name value ∈ s.events) :
    Replaced calls place token table machine name value := by
  have hcreated : (create input).Disciplined {table | .setAliases (some table) ∈ calls} :=
    ⟨fun _ he => absurd he List.not_mem_nil, fun _ ha => absurd ha (Option.not_mem_none _)⟩
  have hdisciplined := hcreated.run (fun _ hmem => hmem) hrun
  obtain ⟨hlookup, halias⟩ := hdisciplined.events _ hreplaced
  obtain ⟨htext, hvalid, hvalue, hinactive⟩ := Run.aliasFor_eq_some halias
  exact ⟨hlookup.set, hlookup.kind, htext, hvalid, hlookup.reserved, hvalue, hinactive, hlookup.eligible⟩

end Session

/-! ### A value that ends in a blank -/

/-- The alias `a` of `b` and a blank, and the alias `c`. -/
def blankAlias (name : Bytes) : Option Bytes :=
  if name = ascii "a" then some (ascii "b ")
  else if name = ascii "c" then some (ascii "d")
  else none

/-- The table is set and the command `a c` is read. -/
def blankCalls : List Call := [.setAliases (some blankAlias), .next 30 1]

/-- The name that was replaced. -/
def Event.name : Event → Option Bytes
  | .replaced _ _ _ _ name _ => some name
  | _ => none

theorem aliases_replaced_blank :
    ∃ answers s, (Session.create { incoming := (ascii "a c\n").map .byte }).run .posix .posix blankCalls =
        some (answers, s) ∧ s.events.filterMap Event.name = [ascii "a", ascii "c"] ∧
      ∀ place token table machine name value, .replaced place token table machine name value ∈ s.events →
        Replaced blankCalls place token table machine name value := by
  have hnames : ((Session.create { incoming := (ascii "a c\n").map .byte }).run .posix .posix
      blankCalls).map (fun r => r.2.events.filterMap Event.name) = some [ascii "a", ascii "c"] := by
    decide +kernel
  obtain ⟨⟨answers, s⟩, hrun, hevents⟩ := Option.map_eq_some_iff.mp hnames
  refine ⟨answers, s, hrun, hevents, ?_⟩
  intro place token table machine name value hreplaced
  exact Session.aliases_replaced hrun hreplaced

end Parse
end CShell
