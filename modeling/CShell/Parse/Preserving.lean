import CShell.Parse.Interface

/-!
# What the operations keep, every parse keeps

The productions are made of the operations of `Run`.  An invariant that each of them
keeps is kept by every production and every call, however it ends.  The frames below
the current one are not touched meanwhile, and have no lookahead; a parse that fails
leaves its failure.

## Main definitions

* `Preserved d I` — every operation keeps `I`, where the parser uses it.
* `At I ps`, `Idle I ps` — `I` holds above the frames `ps`, with nothing in the lookahead.
* `Keeping I ps x` — `x` keeps `I`.

## Main results

* `peek_meets`, `collectDocuments_meets` — the lookahead and the here-documents keep what the
  operations keep.
-/

namespace CShell
namespace Parse

open Lexical Program

/-- Where a token that does not follow a trailing blank is looked up: where a simple
command has its name, or where `skip_newlines` is in a `for`, a `case` or behind the
head of a function. -/
def Place.loose : Place → Bool
  | .forIn | .forDo | .caseIn | .caseItem | .functionBody => true
  | _ => false

/-- A name of a simple command is expected: only assignments were read before it. -/
def Place.ofCommand : Place → Prop
  | .command before => ∀ w ∈ before, w.isAssignment = true
  | _ => False

/-- The flag `command_position` fits the place. -/
def Place.Fits (place : Place) (commandPosition : Bool) : Prop :=
  commandPosition = true → place.ofCommand ∨ place.loose = true

/-- `peek_alias` looks the word in the lookahead up. -/
structure Run.Looks (s : Run) (place : Place) (token : Token) (table : Bytes → Option Bytes) : Prop where
  look : ∃ word, s.frame.look = some word ∧ word.token = token
  aliases : s.parser.aliases = some table
  kind : token.kind = .word
  reserved : Parse.reserved token = false
  eligible : token.aliasEligible = true ∨ place.ofCommand ∨ place.loose = true

/-- Every operation of the parser keeps `I`. -/
structure Preserved (d : Decoder) (I : Run → Prop) : Prop where
  failAt : ∀ s result message number position, I s → I (s.failAt result message number position)
  adoptError : ∀ s error, I s → I (s.adoptError error)
  feedLine : ∀ s, s.frame.look = none → I s → I s.feedLine.2
  next : ∀ s, s.frame.look = none → I s → I (s.next d).2
  beginCommand : ∀ s, s.frame.look = none → I s → I s.beginCommand.2
  endCommand : ∀ s body parent rest, s.parents = parent :: rest → parent.look = none → I s →
    I (s.endCommand body).2
  popFrame : ∀ s parent rest, s.parents = parent :: rest → parent.look = none →
    s.parser.failure.isSome = true → I s → I s.popFrame
  replay : ∀ s, s.frame.look = none → s.parser.failure.isSome = true → I s → I s.replay.2
  discard : ∀ s, I s → I s.discard
  followsRedirection : ∀ s, I s → I (s.followsRedirection d).2
  lookup : ∀ s place token table, s.Looks place token table → I s →
    I (s.lookup place token table).2
  pushAlias : ∀ s place token table name value, s.Looks place token table →
    Run.aliasFor table s.parser.machine token = some (name, value) → I s →
    I (s.pushAlias place token table name value).2
  addDocument : ∀ s document, I s → I (s.addDocument document).2
  setDocument : ∀ s index f, I s → I (s.setDocument index f)
  skipLine : ∀ s length, s.frame.look = none → I s → I (s.skipLine length).2
  clearDocuments : ∀ s, I s → I s.clearDocuments

/-! ### What the operations leave -/

namespace Run

variable (s : Run)

@[simp] theorem saveRecovery_frames :
    s.saveRecovery.frame = s.frame ∧ s.saveRecovery.parents = s.parents ∧
      s.saveRecovery.parser.failure = s.parser.failure := by
  unfold saveRecovery
  dsimp only
  split
  · exact ⟨rfl, rfl, rfl⟩
  · split <;> exact ⟨rfl, rfl, rfl⟩

section

variable (result : ParseResult) (message : Bytes) (number : ℕ) (place : Position)

@[simp] theorem failAt_parents : (s.failAt result message number place).parents = s.parents := by
  unfold failAt
  split
  · rfl
  · exact (saveRecovery_frames _).2.1

@[simp] theorem failAt_failure :
    (s.failAt result message number place).parser.failure.isSome = true := by
  unfold failAt
  split
  · assumption
  · rw [(saveRecovery_frames _).2.2]
    rfl

end

section

variable (error : Failure)

@[simp] theorem adoptError_frame : (s.adoptError error).frame = s.frame := by
  unfold adoptError
  split
  · rfl
  · exact (saveRecovery_frames _).1

@[simp] theorem adoptError_parents : (s.adoptError error).parents = s.parents := by
  unfold adoptError
  split
  · rfl
  · exact (saveRecovery_frames _).2.1

@[simp] theorem adoptError_failure : (s.adoptError error).parser.failure.isSome = true := by
  unfold adoptError
  split
  · assumption
  · dsimp only
    rw [(saveRecovery_frames _).2.2]
    rfl

end

@[simp] theorem feedLine_frames : s.feedLine.2.frame = s.frame ∧ s.feedLine.2.parents = s.parents := by
  unfold feedLine
  dsimp only
  split
  · exact ⟨rfl, rfl⟩
  · exact ⟨rfl, rfl⟩
  · split <;> exact ⟨rfl, rfl⟩
  · split <;> exact ⟨rfl, rfl⟩

theorem discardReplayed_frames :
    s.discardReplayed.frame.look = s.frame.look ∧ s.discardReplayed.parents = s.parents := by
  unfold discardReplayed
  split <;> exact ⟨rfl, rfl⟩

theorem next_parents (d : Decoder) : (s.next d).2.parents = s.parents := by
  unfold next
  dsimp only
  split
  · rfl
  · rfl
  · exact (discardReplayed_frames _).2
  · rfl

/-- What the lookahead holds behind `csh_lexer_next`. -/
theorem next_look (d : Decoder) (hl : s.frame.look = none) :
    match (s.next d).1 with
    | .token _ => True
    | _ => (s.next d).2.frame.look = none := by
  unfold next
  dsimp only
  generalize s.parser.machine.lexerNext d s.depth = answer
  obtain ⟨result, machine⟩ := answer
  cases result with
  | token t => trivial
  | replay => exact (discardReplayed_frames _).1.trans hl
  | eof => exact hl
  | error => exact hl
  | more => exact hl
  | command => exact hl

theorem beginCommand_frames :
    match s.beginCommand.1 with
    | none => s.beginCommand.2.frame.look = none ∧ s.beginCommand.2.parents = s.frame :: s.parents
    | some _ => s.beginCommand.2.frame = s.frame ∧ s.beginCommand.2.parents = s.parents := by
  unfold beginCommand
  generalize s.parser.machine.commandBegin s.depth = answer
  obtain ⟨done, machine⟩ := answer
  cases done <;> exact ⟨rfl, rfl⟩

theorem popFrame_frames {parent : Frame} {rest : List Frame} (hp : s.parents = parent :: rest) :
    s.popFrame.frame = parent ∧ s.popFrame.parents = rest := by
  unfold popFrame
  rw [hp]
  exact ⟨rfl, rfl⟩

theorem endCommand_frames (body : Ast) {parent : Frame} {rest : List Frame}
    (hp : s.parents = parent :: rest) :
    (s.endCommand body).2.frame.look = parent.look ∧ (s.endCommand body).2.parents = rest := by
  obtain ⟨hframe, hparents⟩ := s.popFrame_frames hp
  rw [← hframe, ← hparents]
  unfold endCommand
  dsimp only
  split <;> exact ⟨rfl, rfl⟩

theorem replay_frames : s.replay.2.frame.look = s.frame.look ∧ s.replay.2.parents = s.parents := by
  unfold replay
  dsimp only
  split
  · exact ⟨rfl, rfl⟩
  · exact ⟨rfl, rfl⟩
  · exact discardReplayed_frames _

/-- A replay is refused without a word. -/
theorem replay_failure (h : s.replay.1 = .refused) :
    s.replay.2.parser.failure = s.parser.failure := by
  unfold replay at h ⊢
  dsimp only at h ⊢
  generalize s.parser.machine.replayArithmetic s.depth s.parser.failure = answer at h ⊢
  obtain ⟨result, machine⟩ := answer
  cases result with
  | refused => rfl
  | failed => cases h
  | replayed => cases h

@[simp] theorem followsRedirection_frames (d : Decoder) :
    (s.followsRedirection d).2.frame = s.frame ∧
      (s.followsRedirection d).2.parents = s.parents ∧
      (s.followsRedirection d).2.parser.aliases = s.parser.aliases := ⟨rfl, rfl, rfl⟩

theorem pushAlias_frames (place : Place) (token : Token) (table : Bytes → Option Bytes)
    (name value : Bytes) :
    (s.pushAlias place token table name value).2.parents = s.parents := by
  unfold pushAlias
  split <;> rfl

theorem skipLine_frames (length : ℕ) :
    (s.skipLine length).2.frame = s.frame ∧ (s.skipLine length).2.parents = s.parents := by
  unfold skipLine
  split <;> exact ⟨rfl, rfl⟩

end Run

/-! ### Assertions -/

section

variable (I : Run → Prop) (ps : List Frame)

/-- `I` holds above the frames `ps`. -/
def At (s : Run) : Prop := I s ∧ s.parents = ps

/-- `I` holds above the frames `ps`, with nothing in the lookahead. -/
def Idle (s : Run) : Prop := At I ps s ∧ s.frame.look = none

/-- A parse that failed has left its failure. -/
def Halts (e : Stop) (s : Run) : Prop :=
  e = .failed → At I ps s ∧ s.parser.failure.isSome = true

/-- The action keeps `I` above the frames `ps`. -/
def Keeping {α : Type} (x : P α) : Prop := Meets (At I ps) x (fun _ => At I ps) (Halts I ps)

end

variable {d current : Decoder} {I : Run → Prop} {ps : List Frame} {rounds : ℕ}
  {list : Option (Closing → Bool → Position → P Ast)} {α β : Type}

theorem exhausted_meets {A : Run → Prop} {Q : α → Run → Prop} :
    Meets A (Program.stop .exhausted : P α) Q (Halts I ps) :=
  .stop fun _ _ h => (by cases h)

theorem failAt_meets (hI : Preserved d I) {Q : α → Run → Prop} (result : ParseResult)
    (message : String) (number : ℕ) (place : Position) :
    Meets (At I ps) (failAt result message number place : P α) Q (Halts I ps) := by
  refine .bind (Q := fun _ s => At I ps s ∧ s.parser.failure.isSome = true) (.modify ?_) ?_
  · intro s hs
    exact ⟨⟨hI.failAt _ _ _ _ _ hs.1, by rw [Run.failAt_parents, hs.2]⟩, Run.failAt_failure _ _ _ _ _⟩
  · exact fun _ => .stop fun _ hs _ => hs

theorem adoptError_meets (hI : Preserved d I) {Q : α → Run → Prop} (error : Failure) :
    Meets (At I ps) (adoptError error : P α) Q (Halts I ps) := by
  refine .bind (Q := fun _ s => At I ps s ∧ s.parser.failure.isSome = true) (.modify ?_) ?_
  · intro s hs
    exact ⟨⟨hI.adoptError _ _ hs.1, by rw [Run.adoptError_parents, hs.2]⟩, Run.adoptError_failure _ _⟩
  · exact fun _ => .stop fun _ hs _ => hs

/-- An operation whose error is adopted. -/
theorem orAdopt_meets (hI : Preserved d I) {A : Run → Prop} {Q : Unit → Run → Prop}
    {f : Run → Option Failure × Run} (hok : ∀ s, A s → (f s).1 = none → Q () (f s).2)
    (hat : ∀ s, A s → At I ps (f s).2 ∨ (f s).1 = none) : Meets A (orAdopt f) Q (Halts I ps) := by
  refine .bind (Q := fun r s => match r with
    | none => Q () s
    | some _ => At I ps s) (.update ?_) ?_
  · intro s hs
    cases hr : (f s).1 with
    | none => exact hok s hs hr
    | some error => exact (hat s hs).resolve_right (by rw [hr]; exact fun h => (by cases h))
  · intro r
    cases r with
    | none => exact .pure fun _ hs => hs
    | some error => exact adoptError_meets hI error

/-! ### The lookahead -/

section

variable (hI : Preserved d I)
include hI

theorem replayOr_meets {again : P (Option Word)} {Q : Option Word → Run → Prop}
    (h : Meets (Idle I ps) again Q (Halts I ps)) :
    Meets (fun s => Idle I ps s ∧ s.parser.failure.isSome = true) (peekLoop.replayOr again) Q
      (Halts I ps) := by
  unfold peekLoop.replayOr
  refine .bind (Q := fun r s => Idle I ps s ∧ (r = .refused → s.parser.failure.isSome = true))
    (.update ?_) ?_
  · rintro s ⟨⟨hat, hl⟩, hf⟩
    obtain ⟨hlook, hparents⟩ := s.replay_frames
    refine ⟨⟨⟨hI.replay s hl hf hat.1, hparents.trans hat.2⟩, hlook.trans hl⟩, fun hr => ?_⟩
    rw [s.replay_failure hr]
    exact hf
  · intro r
    cases r with
    | refused => exact .stop fun _ hs _ => ⟨hs.1.1, hs.2 rfl⟩
    | failed =>
      refine .bind_gets fun _ => ?_
      exact (adoptError_meets hI _).pre fun _ hs => hs.1.1.1
    | replayed => exact h.pre fun _ hs => hs.1

variable
  (hlist : ∀ f ∈ list, ∀ ps closing allowEmpty opening, Keeping I ps (f closing allowEmpty opening))
include hlist

theorem commandBody_keeping {f : Closing → Bool → Position → P Ast} (hf : f ∈ list)
    (opening : Position) : Keeping I ps (commandBody f opening) := by
  unfold Keeping commandBody
  refine .bind (hlist f hf _ _ _ _) fun body => ?_
  refine .bind_gets fun s => ?_
  refine .ite (fun _ => .pure fun _ hs => hs.1) fun _ => ?_
  exact (failAt_meets hI _ _ _ _).pre fun _ hs => hs.1

theorem peekLoop_meets (n : ℕ) :
    Meets (Idle I ps) (peekLoop d list n) (fun r s => At I ps s ∧ s.frame.look = r)
      (Halts I ps) := by
  induction n with
  | zero => exact exhausted_meets
  | succ n ih =>
    unfold peekLoop
    refine .bind (Q := fun r s => match r with
      | .token _ => At I ps s
      | _ => Idle I ps s) (.update ?_) ?_
    · rintro s ⟨hat, hl⟩
      have hnext : At I ps (s.next d).2 := ⟨hI.next s hl hat.1, (s.next_parents d).trans hat.2⟩
      have hlook := s.next_look d hl
      cases hr : (s.next d).1 with
      | token t => exact hnext
      | error | more | eof | command | replay =>
        rw [hr] at hlook
        exact ⟨hnext, hlook⟩
    intro r
    cases r with
    | error =>
      refine .bind_gets fun _ => ?_
      exact (adoptError_meets hI _).pre fun _ hs => hs.1.1
    | more =>
      refine .bind (orAdopt_meets hI ?_ ?_) fun _ => ih
      · intro s hs _
        exact ⟨⟨hI.feedLine s hs.2 hs.1.1, (s.feedLine_frames.2).trans hs.1.2⟩, by
          rw [s.feedLine_frames.1, hs.2]⟩
      · exact fun s hs => .inl ⟨hI.feedLine s hs.2 hs.1.1, (s.feedLine_frames.2).trans hs.1.2⟩
    | eof => exact .pure fun _ hs => ⟨hs.1, hs.2⟩
    | token t => exact .gets fun _ hs => ⟨hs, rfl⟩
    | replay => exact ih
    | command =>
      refine .bind_gets fun opening => ?_
      cases list with
      | none => exact (failAt_meets hI _ _ _ _).pre fun _ hs => hs.1.1
      | some f =>
        -- The frame of the word waits below the frame of the new lexer.
        refine .bind (Q := fun _ s => ∃ frame, frame.look = none ∧ At I (frame :: ps) s)
          (orAdopt_meets hI ?_ ?_) fun _ => ?_
        · rintro s ⟨⟨hat, hl⟩, -⟩ hr
          have hframes := s.beginCommand_frames
          rw [hr] at hframes
          exact ⟨s.frame, hl, hI.beginCommand s hl hat.1, by rw [hframes.2, hat.2]⟩
        · rintro s ⟨⟨hat, hl⟩, -⟩
          have hframes := s.beginCommand_frames
          cases hr : s.beginCommand.1 with
          | none => exact .inr rfl
          | some error =>
            rw [hr] at hframes
            exact .inl ⟨hI.beginCommand s hl hat.1, hframes.2.trans hat.2⟩
        refine .exists fun frame => ?_
        refine .bind (Q := fun r s => frame.look = none ∧ match r with
          | .ok _ => At I (frame :: ps) s
          | .error e => Halts I (frame :: ps) e s) (.attempt ?_) ?_
        · intro s hs
          obtain ⟨hok, herror⟩ := commandBody_keeping hI hlist rfl opening s hs.2
          exact ⟨fun a s' h => ⟨hs.1, hok a s' h⟩, fun e s' h => ⟨hs.1, herror e s' h⟩⟩
        intro r
        rcases r with e | body
        · cases e with
          | exhausted => exact exhausted_meets
          | failed =>
            refine .bind (.modify ?_) fun _ => replayOr_meets hI ih
            rintro s ⟨hl, hs⟩
            obtain ⟨hat, hfailure⟩ := hs rfl
            obtain ⟨hframe, hparents⟩ := s.popFrame_frames hat.2
            refine ⟨⟨⟨hI.popFrame s frame ps hat.2 hl hfailure hat.1, hparents⟩, ?_⟩, ?_⟩
            · rw [hframe, hl]
            · unfold Run.popFrame
              rw [hat.2]
              exact hfailure
        · refine .bind (Q := fun _ s => Idle I ps s) (.update ?_) ?_
          · rintro s ⟨hl, hat⟩
            obtain ⟨hlook, hparents⟩ := s.endCommand_frames body hat.2
            exact ⟨⟨hI.endCommand s body frame ps hat.2 hl hat.1, hparents⟩, hlook.trans hl⟩
          intro r
          cases r with
          | none => exact ih
          | some error =>
            refine .bind (.modify ?_) fun _ => replayOr_meets hI ih
            rintro s ⟨hat, hl⟩
            refine ⟨⟨⟨hI.adoptError _ _ hat.1, by rw [Run.adoptError_parents, hat.2]⟩, ?_⟩,
              Run.adoptError_failure _ _⟩
            rw [Run.adoptError_frame, hl]

theorem peekRaw_meets :
    Meets (At I ps) (peekRaw d rounds list) (fun r s => At I ps s ∧ s.frame.look = r)
      (Halts I ps) := by
  unfold peekRaw
  refine .bind_gets fun s => ?_
  refine .ite (fun _ => .pure ?_) fun hl => .ite (fun _ => .pure ?_) fun _ => ?_
  · rintro _ ⟨hat, rfl⟩
    exact ⟨hat, rfl⟩
  · rintro _ ⟨hat, rfl⟩
    exact ⟨hat, by simpa using hl⟩
  · refine (peekLoop_meets hI hlist rounds).pre ?_
    rintro _ ⟨hat, rfl⟩
    exact ⟨hat, by simpa using hl⟩

omit hlist in
/-- A word that would be a descriptor is not looked up; one that is an alias gives way to
its value. -/
theorem aliasLookup_meets {place : Place} {word : Word} {table : Bytes → Option Bytes}
    (hlooks : ∀ s : Run, s.frame.look = some word → s.parser.aliases = some table →
      s.Looks place word.token table) {next : P (Option Word)}
    (hnext : Meets (At I ps) next (fun r s => At I ps s ∧ s.frame.look = r) (Halts I ps))
    (descriptor : Bool) :
    Meets (fun s => At I ps s ∧ s.frame.look = some word ∧ s.parser.aliases = some table)
      (if descriptor then pure (some word) else do
        match ← update (Run.lookup place word.token table) with
        | none => pure (some word)
        | some (name, value) =>
          orAdopt (Run.pushAlias place word.token table name value)
          next)
      (fun r s => At I ps s ∧ s.frame.look = r) (Halts I ps) := by
  refine .ite (fun _ => .pure fun _ hs => ⟨hs.1, hs.2.1⟩) fun _ => ?_
  refine .bind (Q := fun r s => At I ps s ∧ s.frame.look = some word ∧
    s.parser.aliases = some table ∧ r = Run.aliasFor table s.parser.machine word.token)
    (.update ?_) ?_
  · rintro s' ⟨hat', hl, ha'⟩
    exact ⟨⟨hI.lookup _ _ _ _ (hlooks s' hl ha') hat'.1, hat'.2⟩, hl, ha', rfl⟩
  intro r
  rcases r with _ | ⟨name, value⟩
  · exact .pure fun _ hs => ⟨hs.1, hs.2.1⟩
  · have hpush : ∀ s' : Run, (At I ps s' ∧ s'.frame.look = some word ∧
        s'.parser.aliases = some table ∧
          some (name, value) = Run.aliasFor table s'.parser.machine word.token) →
        At I ps (s'.pushAlias place word.token table name value).2 := by
      rintro s' ⟨hat', hl, ha', hr⟩
      exact ⟨hI.pushAlias _ _ _ _ _ _ (hlooks s' hl ha') hr.symm hat'.1,
        (s'.pushAlias_frames _ _ _ _ _).trans hat'.2⟩
    exact .bind (orAdopt_meets hI (fun s' hs _ => hpush s' hs) fun s' hs => .inl (hpush s' hs))
      fun _ => hnext

theorem aliasLoop_meets {place : Place} {commandPosition : Bool}
    (hplace : place.Fits commandPosition) (n : ℕ) :
    Meets (At I ps) (aliasLoop d rounds list place commandPosition n)
      (fun r s => At I ps s ∧ s.frame.look = r) (Halts I ps) := by
  induction n with
  | zero => exact exhausted_meets
  | succ n ih =>
    unfold aliasLoop
    refine .bind (peekRaw_meets hI hlist) fun r => ?_
    cases r with
    | none => exact .pure fun _ hs => hs
    | some word =>
      refine .bind_gets fun s => ?_
      cases ha : s.parser.aliases with
      | none => exact .pure fun _ hs => hs.1
      | some table =>
        refine .ite (fun _ => .pure fun _ hs => hs.1) fun hc => ?_
        have hlooks : ∀ s' : Run, s'.frame.look = some word → s'.parser.aliases = some table →
            s'.Looks place word.token table := by
          intro s' hl ha'
          simp only [Bool.or_eq_true, bne_iff_ne, ne_eq, not_or, not_not, Bool.and_eq_true,
            Bool.not_eq_true', not_and, Bool.not_eq_false, Bool.not_eq_true] at hc
          refine ⟨⟨word, hl, rfl⟩, ha', hc.1.1, hc.2, ?_⟩
          cases commandPosition with
          | false => exact .inl (hc.1.2 rfl)
          | true => exact .inr (hplace rfl)
        have hat : ∀ s' : Run, (At I ps s' ∧ s'.frame.look = some word) ∧ id s' = s →
            At I ps s' ∧ s'.frame.look = some word ∧ s'.parser.aliases = some table := by
          rintro s' ⟨⟨hat, hl⟩, rfl⟩
          exact ⟨hat, hl, ha⟩
        have hbehind := aliasLookup_meets hI hlooks ih
        refine .ite (fun _ => .bind (.update ?_) hbehind) fun _ => .bind (.pure ?_) hbehind
        · rintro s' hs
          obtain ⟨hat', hl, ha'⟩ := hat s' hs
          obtain ⟨hframe, hparents, haliases⟩ := s'.followsRedirection_frames d
          exact ⟨⟨hI.followsRedirection s' hat'.1, hparents.trans hat'.2⟩, by rw [hframe, hl],
            haliases.trans ha'⟩
        · exact hat

theorem peekAlias_meets {place : Place} {commandPosition : Bool}
    (hplace : place.Fits commandPosition) :
    Meets (At I ps) (peekAlias d rounds list place commandPosition)
      (fun r s => At I ps s ∧ s.frame.look = r) (Halts I ps) :=
  aliasLoop_meets hI hlist hplace rounds

theorem peek_meets (place : Place) :
    Meets (At I ps) (peek d rounds list place) (fun r s => At I ps s ∧ s.frame.look = r)
      (Halts I ps) :=
  peekAlias_meets hI hlist fun h => (by cases h)

omit hlist in
theorem discard_meets : Meets (At I ps) discard (fun _ => Idle I ps) (Halts I ps) :=
  .modify fun s hs => ⟨⟨hI.discard s hs.1, hs.2⟩, rfl⟩

/-! ### Here-documents -/

omit hlist in
theorem documentLoop_meets (index : ℕ) (document : Document) (discardBody : Bool) (n : ℕ)
    (c : Collecting) :
    Meets (Idle I ps) (documentLoop d index document discardBody n c) (fun _ => Idle I ps)
      (Halts I ps) := by
  induction n generalizing c with
  | zero => exact exhausted_meets
  | succ n ih =>
    unfold documentLoop
    refine .bind_gets fun s => ?_
    dsimp only
    refine .ite (fun _ => .ite (fun _ => ?_) fun _ => ?_) fun _ => ?_
    · exact (failAt_meets hI _ _ _ _).pre fun _ hs => hs.1.1
    · refine .bind (orAdopt_meets hI ?_ ?_) fun _ => ih c
      · rintro s' ⟨hs, -⟩ -
        exact ⟨⟨hI.feedLine s' hs.2 hs.1.1, (s'.feedLine_frames.2).trans hs.1.2⟩, by
          rw [s'.feedLine_frames.1, hs.2]⟩
      · exact fun s' hs =>
          .inl ⟨hI.feedLine s' hs.1.2 hs.1.1.1, (s'.feedLine_frames.2).trans hs.1.1.2⟩
    · have hskip : ∀ (s' : Run) (length : ℕ), Idle I ps s' → Idle I ps (s'.skipLine length).2 := by
        intro s' length hs
        obtain ⟨hframe, hparents⟩ := s'.skipLine_frames length
        exact ⟨⟨hI.skipLine s' length hs.2 hs.1.1, hparents.trans hs.1.2⟩, by rw [hframe, hs.2]⟩
      refine .bind (Q := fun _ => Idle I ps) (orAdopt_meets hI ?_ ?_) fun _ => ?_
      · exact fun s' hs _ => hskip s' _ hs.1
      · exact fun s' hs => .inl (hskip s' _ hs.1).1
      · refine .ite (fun _ => ih _) fun _ => .ite (fun _ => ?_) fun _ => ih _
        exact .modify fun s' hs => ⟨⟨hI.setDocument s' _ _ hs.1.1, hs.1.2⟩, hs.2⟩

omit hlist in
theorem collectLoop_meets (discardBody : Bool) (indices : List ℕ) :
    Meets (Idle I ps) (collectLoop d rounds discardBody indices) (fun _ => Idle I ps)
      (Halts I ps) := by
  induction indices with
  | nil => exact .pure fun _ hs => hs
  | cons index rest ih =>
    unfold collectLoop position
    refine .bind_gets fun start => ?_
    refine .bind (Q := fun _ => Idle I ps) (.modify ?_) fun _ => ?_
    · exact fun s hs => ⟨⟨hI.setDocument s _ _ hs.1.1.1, hs.1.1.2⟩, hs.1.2⟩
    refine .bind_gets fun s => ?_
    cases s.documents[index]? with
    | none => exact ih.pre fun _ hs => hs.1
    | some document =>
      exact .bind ((documentLoop_meets hI _ _ _ _ _).pre fun _ hs => hs.1) fun _ => ih

omit hlist in
theorem collectDocuments_meets (discardBody : Bool) :
    Meets (Idle I ps) (collectDocuments d rounds discardBody) (fun _ => Idle I ps)
      (Halts I ps) := by
  unfold collectDocuments
  refine .bind_gets fun s => ?_
  refine .bind ((collectLoop_meets hI _ _).pre fun _ hs => hs.1) fun _ => ?_
  exact .modify fun s hs => ⟨⟨hI.clearDocuments s hs.1.1, hs.1.2⟩, hs.2⟩

omit hlist in
theorem newline_meets :
    Meets (At I ps) (newline d rounds) (fun _ => Idle I ps) (Halts I ps) :=
  .bind (discard_meets hI) fun _ => collectDocuments_meets hI false

/-! ### Beginnings and ends of productions -/

theorem skipLoop_meets {place : Place} (hplace : place.Fits true) (n : ℕ) :
    Meets (At I ps) (skipLoop d rounds list place n) (fun r s => At I ps s ∧ s.frame.look = r)
      (Halts I ps) := by
  induction n with
  | zero => exact exhausted_meets
  | succ n ih =>
    unfold skipLoop
    refine .bind (peekAlias_meets hI hlist hplace) fun r => ?_
    cases r with
    | none => exact .pure fun _ hs => hs
    | some word =>
      refine .ite (fun _ => ?_) fun _ => .pure fun _ hs => hs
      exact .bind ((newline_meets hI).pre fun _ hs => hs.1) fun _ => ih.pre fun _ hs => hs.1

theorem skipNewlines_meets {place : Place} (hplace : place.Fits true) :
    Meets (At I ps) (skipNewlines d rounds list place)
      (fun r s => At I ps s ∧ s.frame.look = r) (Halts I ps) :=
  skipLoop_meets hI hlist hplace rounds

theorem expectToken_meets (place : Place) (kind : TokenKind) (spelling : Option String)
    (message : String) :
    Keeping I ps (expectToken d rounds list place kind spelling message) := by
  unfold Keeping expectToken position
  refine .bind (peek_meets hI hlist place) fun r => ?_
  cases r with
  | none => exact .bind_gets fun _ => (failAt_meets hI _ _ _ _).pre fun _ hs => hs.1.1
  | some word =>
    refine .ite (fun _ => ?_) fun _ => .pure fun _ hs => hs.1
    exact .bind_gets fun _ => (failAt_meets hI _ _ _ _).pre fun _ hs => hs.1.1

theorem consumeKeyword_meets (spelling : String) :
    Keeping I ps (consumeKeyword d rounds list spelling) := by
  unfold Keeping consumeKeyword
  refine .bind (expectToken_meets hI hlist _ _ _ _) fun word => ?_
  exact .bind (discard_meets hI) fun _ => .pure fun _ hs => hs.1

end

end Parse
end CShell
