import CShell.Parse.Preserving

/-!
# The productions keep what the operations keep

One lemma for each production, under the assumption that the parser of nested lists
keeps the invariant; the parser of a list is then a recursion on the room left on the
stack.

## Main results

* `parseList_keeping` — `parse_list` keeps what every operation keeps.

## References

`src/parser.c`.
-/

namespace CShell
namespace Parse

open Lexical Program

variable {d current : Decoder} {I : Run → Prop} {ps : List Frame} {rounds : ℕ}
  {list : Option (Closing → Bool → Position → P Ast)} {α β : Type}

/-! ### Rules -/

namespace Keeping

theorem bind {x : P α} {f : α → P β} (hx : Keeping I ps x) (hf : ∀ a, Keeping I ps (f a)) :
    Keeping I ps (x >>= f) := Meets.bind hx hf

theorem pure (a : α) : Keeping I ps (Pure.pure a : P α) :=
  Meets.pure fun _ hs => hs

theorem gets (f : Run → α) : Keeping I ps (Program.gets f : P α) :=
  Meets.gets fun _ hs => hs

theorem ite {c : Prop} [Decidable c] {x y : P α} (hx : c → Keeping I ps x)
    (hy : ¬c → Keeping I ps y) : Keeping I ps (if c then x else y) := Meets.ite hx hy

/-- What is known of the answer is forgotten. -/
theorem forget {x : P α} {Q : α → Run → Prop}
    (h : Meets (At I ps) x (fun a s => At I ps s ∧ Q a s) (Halts I ps)) : Keeping I ps x :=
  h.weaken (fun _ hs => hs) (fun _ _ hs => hs.1) fun _ _ hs => hs

end Keeping

theorem position_keeping : Keeping I ps position := .gets _

theorem lookToken_keeping : Keeping I ps lookToken := .gets _

theorem exhausted_keeping : Keeping I ps (Program.stop .exhausted : P α) := exhausted_meets

section

variable (hI : Preserved d I)
include hI

theorem failAt_keeping (result : ParseResult) (message : String) (number : ℕ) (place : Position) :
    Keeping I ps (failAt result message number place : P α) := failAt_meets hI _ _ _ _

theorem failHere_keeping (result : ParseResult) (message : String) (number : ℕ) :
    Keeping I ps (do failAt result message number (← position) : P α) :=
  .bind position_keeping fun _ => failAt_keeping hI _ _ _ _

theorem discard_keeping : Keeping I ps discard := .forget (discard_meets hI)

theorem newline_keeping : Keeping I ps (newline d rounds) := .forget (newline_meets hI)

variable
  (hlist : ∀ f ∈ list, ∀ ps closing allowEmpty opening, Keeping I ps (f closing allowEmpty opening))
include hlist

theorem peek_keeping (place : Place) : Keeping I ps (peek d rounds list place) :=
  .forget (peek_meets hI hlist place)

theorem peekAlias_keeping {place : Place} {commandPosition : Bool}
    (hplace : place.Fits commandPosition) :
    Keeping I ps (peekAlias d rounds list place commandPosition) :=
  .forget (peekAlias_meets hI hlist hplace)

theorem skipNewlines_keeping {place : Place} (hplace : place.Fits true) :
    Keeping I ps (skipNewlines d rounds list place) := .forget (skipNewlines_meets hI hlist hplace)

omit hI hlist in
/-- The first word of a command. -/
theorem fits_first (commandPosition : Bool) : (Place.command []).Fits commandPosition :=
  fun _ => .inl fun _ hw => (by cases hw)

omit hI hlist in
/-- A place where `skip_newlines` makes the next token eligible. -/
theorem fits_loose {place : Place} (h : place.loose = true) : place.Fits true := fun _ => .inr h

theorem nested_keeping (closing : Closing) (allowEmpty : Bool) (opening : Position) :
    Keeping I ps (nested list closing allowEmpty opening) := by
  unfold nested
  cases list with
  | none => exact failHere_keeping hI _ _ _
  | some f => exact hlist f rfl _ _ _ _

/-! ### Redirections -/

omit hlist in
theorem prepareDocument_keeping (kind : TokenKind) (operand : Token) :
    Keeping I ps (prepareDocument d current kind operand) := by
  unfold prepareDocument
  cases delimiterSpelling d current 0 operand.raw with
  | none => exact failAt_keeping hI _ _ _ _
  | some answer => exact .update fun s hs => ⟨hI.addDocument s _ hs.1, hs.2⟩

theorem parseRedirection_keeping (operator : Token) (descriptor : Option Word) :
    Keeping I ps (parseRedirection d current rounds list operator descriptor) := by
  unfold parseRedirection
  refine .bind (discard_keeping hI) fun _ => .bind (peek_keeping hI hlist _) fun r => ?_
  cases r with
  | none => exact failAt_keeping hI _ _ _ _
  | some operand =>
    refine .ite (fun _ => failHere_keeping hI _ _ _) fun _ => .bind (discard_keeping hI) fun _ => ?_
    have hpure : ∀ document : Option ℕ, Keeping I ps (Pure.pure (Redirection.mk operator.kind
        ((descriptor.map fun word => word.token.start).getD operator.start) operand.token.stop
        (descriptor.map Word.token) operand document) : P Redirection) := fun _ => .pure _
    refine .ite (fun _ => .bind ?_ hpure) fun _ => .bind (.pure _) hpure
    exact .bind (prepareDocument_keeping hI _ _) fun _ => .pure _

/-! ### Compound commands -/

theorem ifLoop_keeping (start : Position) (n : ℕ) (branches : List Branch) :
    Keeping I ps (ifLoop d rounds list start n branches) := by
  induction n generalizing branches with
  | zero => exact exhausted_keeping
  | succ n ih =>
    unfold ifLoop
    refine .bind (discard_keeping hI) fun _ => .bind (nested_keeping hI hlist _ _ _) fun _ => ?_
    refine .bind (consumeKeyword_meets hI hlist _) fun _ => ?_
    refine .bind (nested_keeping hI hlist _ _ _) fun _ => .bind lookToken_keeping fun _ => ?_
    exact .ite (fun _ => ih _) fun _ => .pure _

theorem parseIf_keeping (start : Position) : Keeping I ps (parseIf d rounds list start) := by
  unfold parseIf
  refine .bind (ifLoop_keeping hI hlist _ _ _) fun branches => .bind lookToken_keeping fun _ => ?_
  have hfi : ∀ elseBody : Option Ast, Keeping I ps (do
      let stop ← consumeKeyword d rounds list "fi"
      Pure.pure (Ast.ifClause start stop [] branches elseBody)) :=
    fun _ => .bind (consumeKeyword_meets hI hlist _) fun _ => .pure _
  refine .ite (fun _ => ?_) fun _ => .bind (.pure _) hfi
  refine .bind (discard_keeping hI) fun _ => .bind ?_ hfi
  exact .bind (nested_keeping hI hlist _ _ _) fun _ => .pure _

theorem parseLoop_keeping (untilClause : Bool) (start : Position) :
    Keeping I ps (parseLoop d rounds list untilClause start) := by
  unfold parseLoop
  refine .bind (discard_keeping hI) fun _ => .bind (nested_keeping hI hlist _ _ _) fun _ => ?_
  refine .bind (consumeKeyword_meets hI hlist _) fun _ => ?_
  refine .bind (nested_keeping hI hlist _ _ _) fun _ => ?_
  exact .bind (consumeKeyword_meets hI hlist _) fun _ => .pure _

theorem forWords_keeping (n : ℕ) (words : List Word) :
    Keeping I ps (forWords d rounds list n words) := by
  induction n generalizing words with
  | zero => exact exhausted_keeping
  | succ n ih =>
    unfold forWords
    refine .bind (peek_keeping hI hlist _) fun r => ?_
    cases r with
    | none => exact .pure _
    | some word => exact .ite (fun _ => .bind (discard_keeping hI) fun _ => ih _) fun _ => .pure _

theorem forList_keeping : Keeping I ps (forList d rounds list) := by
  unfold forList
  refine .bind (discard_keeping hI) fun _ => .bind (forWords_keeping hI hlist _ _) fun r => ?_
  rcases r with ⟨words, _ | word⟩
  · exact failHere_keeping hI _ _ _
  · have hdo : Keeping I ps (do
        let _ ← skipNewlines d rounds list .forDo
        Pure.pure words) :=
      .bind (skipNewlines_keeping hI hlist (fits_loose rfl)) fun _ => .pure _
    refine .ite (fun _ => .bind (newline_keeping hI) fun _ => hdo) fun _ => .ite (fun _ => ?_) fun _ => ?_
    · exact .bind (discard_keeping hI) fun _ => hdo
    · exact .bind position_keeping fun _ => .bind (failAt_keeping hI _ _ _ _) fun _ => hdo

theorem parseFor_keeping (start : Position) : Keeping I ps (parseFor d rounds list start) := by
  unfold parseFor
  refine .bind (discard_keeping hI) fun _ => .bind (expectToken_meets hI hlist _ _ _ _) fun name => ?_
  refine .ite (fun _ => failHere_keeping hI _ _ _) fun _ => .bind (discard_keeping hI) fun _ => ?_
  refine .bind (peek_keeping hI hlist _) fun _ => ?_
  refine .bind (skipNewlines_keeping hI hlist (fits_loose rfl)) fun _ => ?_
  have hbody : ∀ (hasIn : Bool) (words : List Word), Keeping I ps (do
      let _ ← consumeKeyword d rounds list "do"
      let body ← nested list .doneWord false start
      let stop ← consumeKeyword d rounds list "done"
      Pure.pure (Ast.forClause start stop [] name hasIn words body)) := by
    intro hasIn words
    refine .bind (consumeKeyword_meets hI hlist _) fun _ => ?_
    refine .bind (nested_keeping hI hlist _ _ _) fun _ => ?_
    exact .bind (consumeKeyword_meets hI hlist _) fun _ => .pure _
  refine .ite (fun _ => ?_) fun _ => .bind lookToken_keeping fun _ => ?_
  · refine .bind (discard_keeping hI) fun _ => ?_
    refine .bind (skipNewlines_keeping hI hlist (fits_loose rfl)) fun _ => ?_
    refine .bind lookToken_keeping fun _ => ?_
    refine .ite (fun _ => .bind (forList_keeping hI hlist) fun _ => hbody _ _) fun _ => ?_
    exact .bind (.pure _) fun _ => hbody _ _
  · refine .ite (fun _ => .bind (forList_keeping hI hlist) fun _ => hbody _ _) fun _ => ?_
    exact .bind (.pure _) fun _ => hbody _ _

theorem casePatterns_keeping (n : ℕ) (patterns : List Word) :
    Keeping I ps (casePatterns d rounds list n patterns) := by
  induction n generalizing patterns with
  | zero => exact exhausted_keeping
  | succ n ih =>
    unfold casePatterns
    refine .bind (expectToken_meets hI hlist _ _ _ _) fun _ => .bind (discard_keeping hI) fun _ => ?_
    refine .bind (peek_keeping hI hlist _) fun r => ?_
    cases r with
    | none => exact .pure _
    | some word => exact .ite (fun _ => .bind (discard_keeping hI) fun _ => ih _) fun _ => .pure _

/-- A case item behind its parenthesis. -/
theorem caseBehind_keeping (start : Position) : Keeping I ps (do
    let patterns ← casePatterns d rounds list rounds []
    let _ ← expectToken d rounds list .caseBar .rparen none "expected ')' after case patterns"
    discard
    let body ← nested list .caseItem true start
    match ← lookToken with
    | none => Pure.pure (CaseItem.mk patterns body .finish {} {})
    | some token =>
      if token.kind = .dsemi ∨ token.kind = .semiAnd then
        discard
        Pure.pure (.mk patterns body (if token.kind = .dsemi then .leave else .fallthrough)
          token.start token.stop)
      else Pure.pure (.mk patterns body .finish {} {})) := by
  refine .bind (casePatterns_keeping hI hlist _ _) fun _ => ?_
  refine .bind (expectToken_meets hI hlist _ _ _ _) fun _ => .bind (discard_keeping hI) fun _ => ?_
  refine .bind (nested_keeping hI hlist _ _ _) fun _ => .bind lookToken_keeping fun r => ?_
  cases r with
  | none => exact .pure _
  | some token =>
    exact .ite (fun _ => .bind (discard_keeping hI) fun _ => .pure _) fun _ => .pure _

theorem caseItem_keeping (start : Position) (look : Token) :
    Keeping I ps (caseItem d rounds list start look) := by
  unfold caseItem
  exact .ite (fun _ => .bind (discard_keeping hI) fun _ => caseBehind_keeping hI hlist start) fun _ =>
    caseBehind_keeping hI hlist start

theorem caseLoop_keeping (start : Position) (word : Word) (n : ℕ) (items : List CaseItem) :
    Keeping I ps (caseLoop d rounds list start word n items) := by
  induction n generalizing items with
  | zero => exact exhausted_keeping
  | succ n ih =>
    unfold caseLoop
    refine .bind (skipNewlines_keeping hI hlist (fits_loose rfl)) fun r => ?_
    cases r with
    | none => exact failAt_keeping hI _ _ _ _
    | some look =>
      refine .ite (fun _ => ?_) fun _ => .bind (caseItem_keeping hI hlist _ _) fun _ => ih _
      exact .bind (consumeKeyword_meets hI hlist _) fun _ => .pure _

theorem parseCase_keeping (start : Position) : Keeping I ps (parseCase d rounds list start) := by
  unfold parseCase
  refine .bind (discard_keeping hI) fun _ => .bind (expectToken_meets hI hlist _ _ _ _) fun _ => ?_
  refine .bind (discard_keeping hI) fun _ => ?_
  refine .bind (skipNewlines_keeping hI hlist (fits_loose rfl)) fun _ => ?_
  exact .bind (consumeKeyword_meets hI hlist _) fun _ => caseLoop_keeping hI hlist _ _ _ _

theorem parseGroup_keeping (subshell : Bool) (start : Position) :
    Keeping I ps (parseGroup list subshell start) := by
  unfold parseGroup
  refine .bind (discard_keeping hI) fun _ => .bind (nested_keeping hI hlist _ _ _) fun _ => ?_
  exact .bind lookToken_keeping fun _ => .bind (discard_keeping hI) fun _ => .pure _

theorem parseCompound_keeping (kind : CompoundKind) :
    Keeping I ps (parseCompound d rounds list kind) := by
  unfold parseCompound
  refine .bind position_keeping fun start => .ite (fun _ => failAt_keeping hI _ _ _ _) fun _ => ?_
  cases kind with
  | subshell => exact parseGroup_keeping hI hlist _ _
  | brace => exact parseGroup_keeping hI hlist _ _
  | ifClause => exact parseIf_keeping hI hlist _
  | forClause => exact parseFor_keeping hI hlist _
  | whileLoop => exact parseLoop_keeping hI hlist _ _
  | untilLoop => exact parseLoop_keeping hI hlist _ _
  | caseClause => exact parseCase_keeping hI hlist _

theorem trailingRedirections_keeping (n : ℕ) (node : Ast) :
    Keeping I ps (trailingRedirections d current rounds list n node) := by
  induction n generalizing node with
  | zero => exact exhausted_keeping
  | succ n ih =>
    unfold trailingRedirections
    refine .bind (peek_keeping hI hlist _) fun r => ?_
    cases r with
    | none => exact .pure _
    | some look =>
      refine .ite (fun _ => .bind (parseRedirection_keeping hI hlist _ _) fun _ => ih _) fun _ =>
        .ite (fun _ => ?_) fun _ => .pure _
      refine .bind (.update fun s hs => ⟨hI.followsRedirection s hs.1, hs.2⟩) fun _ => ?_
      refine .bind (discard_keeping hI) fun _ => .bind (peek_keeping hI hlist _) fun r => ?_
      cases r with
      | none => exact failAt_keeping hI _ _ _ _
      | some operator =>
        refine .ite (fun _ => ?_) fun _ => failAt_keeping hI _ _ _ _
        exact .bind (parseRedirection_keeping hI hlist _ _) fun _ => ih _

theorem parseFunction_keeping (name : Word) :
    Keeping I ps (parseFunction d current rounds list name) := by
  unfold parseFunction
  refine .ite (fun _ => failAt_keeping hI _ _ _ _) fun _ => .bind (discard_keeping hI) fun _ => ?_
  refine .bind (expectToken_meets hI hlist _ _ _ _) fun _ => .bind (discard_keeping hI) fun _ => ?_
  refine .bind (skipNewlines_keeping hI hlist (fits_loose rfl)) fun r => ?_
  cases r with
  | none => exact failHere_keeping hI _ _ _
  | some look =>
    dsimp only
    cases compoundKind look.token with
    | none => exact failHere_keeping hI _ _ _
    | some kind =>
      refine .bind (parseCompound_keeping hI hlist _) fun _ => ?_
      exact trailingRedirections_keeping hI hlist _ _

/-! ### Simple commands -/

omit hI hlist in
/-- Before the command name only assignments were read. -/
theorem fits_simple {c : Simple} (h : c.commandName = false → ∀ w ∈ c.words, w.isAssignment = true) :
    (if c.commandName then Place.argument else .command c.words).Fits (!c.commandName) := by
  cases hc : c.commandName with
  | false => exact fun _ => .inl (h hc)
  | true => exact fun h => (by cases h)

omit hI hlist in
theorem Simple.add_assignments {c : Simple} (word : Word)
    (h : c.commandName = false → ∀ w ∈ c.words, w.isAssignment = true)
    (hc : (c.add word).commandName = false) : ∀ w ∈ (c.add word).words, w.isAssignment = true := by
  have hname : c.commandName = false ∧ (!c.commandName && assignment word.token) = true := by
    simpa [Simple.add] using hc
  intro w hw
  rcases List.mem_append.mp hw with hw | hw
  · exact h hname.1 w hw
  · rw [List.mem_singleton.mp hw]
    exact hname.2

/-- A simple command behind one of its words. -/
theorem simpleBehind_keeping (look : Word) {opening : Position} {n : ℕ} {c : Simple}
    (hc : c.commandName = false → ∀ w ∈ c.words, w.isAssignment = true)
    (hnext : ∀ c : Simple, (c.commandName = false → ∀ w ∈ c.words, w.isAssignment = true) →
      Keeping I ps (simpleLoop d current rounds list opening n c)) (descriptor : Bool) :
    Keeping I ps (do
      discard
      let behind ← peek d rounds list .behindWord
      let kind := behind.map fun word => word.token.kind
      if !c.begun && kind == some .lparen then parseFunction d current rounds list look
      else
        match behind with
        | some operator =>
          if descriptor && redirectionKind operator.token.kind then
            let r ← parseRedirection d current rounds list operator.token (some look)
            simpleLoop d current rounds list opening n (c.redirect r)
          else simpleLoop d current rounds list opening n (c.add look)
        | none => simpleLoop d current rounds list opening n (c.add look)) := by
  refine .bind (discard_keeping hI) fun _ => .bind (peek_keeping hI hlist _) fun r => ?_
  refine .ite (fun _ => parseFunction_keeping hI hlist _) fun _ => ?_
  cases r with
  | none => exact hnext _ (c.add_assignments look hc)
  | some operator =>
    refine .ite (fun _ => ?_) fun _ => hnext _ (c.add_assignments look hc)
    exact .bind (parseRedirection_keeping hI hlist _ _) fun _ => hnext _ hc

theorem simpleLoop_keeping (opening : Position) (n : ℕ) (c : Simple)
    (hc : c.commandName = false → ∀ w ∈ c.words, w.isAssignment = true) :
    Keeping I ps (simpleLoop d current rounds list opening n c) := by
  induction n generalizing c with
  | zero => exact exhausted_keeping
  | succ n ih =>
    have hfinish : Keeping I ps (c.finish opening) := by
      unfold Simple.finish
      exact .ite (fun _ => failAt_keeping hI _ _ _ _) fun _ => .pure _
    unfold simpleLoop
    refine .bind (peekAlias_keeping hI hlist (fits_simple hc)) fun r => ?_
    cases r with
    | none => exact hfinish
    | some look =>
      refine .ite (fun _ => .bind (parseRedirection_keeping hI hlist _ _) fun _ => ih _ hc) fun _ =>
        .ite (fun _ => hfinish) fun _ => .ite (fun _ => failHere_keeping hI _ _ _) fun _ => ?_
      have hbehind := simpleBehind_keeping hI hlist look hc ih
      refine .ite (fun _ => .bind (.update ?_) hbehind) fun _ => .bind (.pure _) hbehind
      exact fun s hs => ⟨hI.followsRedirection s hs.1, hs.2⟩

theorem parseCommand_keeping : Keeping I ps (parseCommand d current rounds list) := by
  unfold parseCommand
  refine .bind (peekAlias_keeping hI hlist (fits_first _)) fun r => ?_
  cases r with
  | none => exact failHere_keeping hI _ _ _
  | some look =>
    dsimp only
    cases compoundKind look.token with
    | none => exact simpleLoop_keeping hI hlist _ _ _ fun _ _ hw => (by cases hw)
    | some kind =>
      refine .bind (parseCompound_keeping hI hlist _) fun _ => ?_
      exact trailingRedirections_keeping hI hlist _ _

/-! ### Pipelines and lists -/

theorem pipelineLoop_keeping (n : ℕ) (commands : List Ast) :
    Keeping I ps (pipelineLoop d current rounds list n commands) := by
  induction n generalizing commands with
  | zero => exact exhausted_keeping
  | succ n ih =>
    unfold pipelineLoop
    refine .bind (peek_keeping hI hlist _) fun r => ?_
    cases r with
    | none => exact .pure _
    | some look =>
      refine .ite (fun _ => .bind (discard_keeping hI) fun _ => ?_) fun _ => .pure _
      refine .bind (skipNewlines_keeping hI hlist (fits_first _)) fun r => ?_
      cases r with
      | none => exact failAt_keeping hI _ _ _ _
      | some word => exact .bind (parseCommand_keeping hI hlist) fun _ => ih _

/-- A pipeline behind the `!`. -/
theorem pipelineBehind_keeping (opening : Position) (negated : Bool) : Keeping I ps (do
    let command ← parseCommand d current rounds list
    let commands ← pipelineLoop d current rounds list rounds [command]
    match negated, commands with
    | false, [command] => Pure.pure command
    | _, _ => Pure.pure (Ast.pipeline opening
        ((commands.getLast?.map Ast.stop).getD command.stop) negated commands)) := by
  refine .bind (parseCommand_keeping hI hlist) fun _ => ?_
  refine .bind (pipelineLoop_keeping hI hlist _ _) fun commands => ?_
  split <;> exact .pure _

theorem parsePipeline_keeping : Keeping I ps (parsePipeline d current rounds list) := by
  unfold parsePipeline
  refine .bind position_keeping fun _ => .bind (peekAlias_keeping hI hlist (fits_first _)) fun _ => ?_
  exact .ite (fun _ => .bind (discard_keeping hI) fun _ => pipelineBehind_keeping hI hlist _ _) fun _ =>
    pipelineBehind_keeping hI hlist _ _

theorem andOrLoop_keeping (n : ℕ) (left : Ast) :
    Keeping I ps (andOrLoop d current rounds list n left) := by
  induction n generalizing left with
  | zero => exact exhausted_keeping
  | succ n ih =>
    unfold andOrLoop
    refine .bind (peek_keeping hI hlist _) fun r => ?_
    cases r with
    | none => exact .pure _
    | some look =>
      refine .ite (fun _ => .bind (discard_keeping hI) fun _ => ?_) fun _ => .pure _
      refine .bind (skipNewlines_keeping hI hlist (fits_first _)) fun r => ?_
      cases r with
      | none => exact failAt_keeping hI _ _ _ _
      | some word => exact .bind (parsePipeline_keeping hI hlist) fun _ => ih _

theorem parseAndOr_keeping : Keeping I ps (parseAndOr d current rounds list) :=
  .bind (parsePipeline_keeping hI hlist) fun _ => andOrLoop_keeping hI hlist _ _

omit hlist in
theorem finishList_keeping (closing : Closing) (tree : Ast) :
    Keeping I ps (finishList closing tree) := by
  unfold finishList
  refine .bind (.gets _) fun s => ?_
  split
  · exact failAt_keeping hI _ _ _ _
  · exact .pure _

theorem listLoop_keeping (closing : Closing) (opening : Position) (n : ℕ) (start stop : Position)
    (items : List ListItem) (ended : Bool) :
    Keeping I ps (listLoop d current rounds list closing opening n start stop items ended) := by
  induction n generalizing start stop items ended with
  | zero => exact exhausted_keeping
  | succ n ih =>
    unfold listLoop
    refine .ite (fun _ => ?_) fun _ => .bind (parseAndOr_keeping hI hlist) fun command => ?_
    · exact .ite (fun _ => finishList_keeping hI _ _) fun _ => failAt_keeping hI _ _ _ _
    refine .bind (peek_keeping hI hlist _) fun r => ?_
    cases r with
    | none => exact .ite (fun _ => finishList_keeping hI _ _) fun _ => failAt_keeping hI _ _ _ _
    | some look =>
      dsimp only
      cases separatorOf look.token.kind with
      | none =>
        exact .ite (fun _ => failHere_keeping hI _ _ _) fun _ => finishList_keeping hI _ _
      | some separator =>
        have hclosed : ∀ (closing : Closing) (behind : Option Token) (tree : Ast) (more : P Ast),
            Keeping I ps more →
            Keeping I ps (if atClose closing behind then finishList closing tree else more) :=
          fun _ _ _ _ hmore => .ite (fun _ => finishList_keeping hI _ _) fun _ => hmore
        refine .ite (fun _ => .bind (newline_keeping hI) fun _ => ?_) fun _ =>
          .bind (discard_keeping hI) fun _ => ?_
        all_goals
          refine .ite (fun _ => .pure _) fun _ => ?_
          refine .bind (peekAlias_keeping hI hlist (fits_first _)) fun r => ?_
          split
          · refine .ite (fun _ => .bind (newline_keeping hI) fun _ => .pure _) fun _ => ih _ _ _ _
          · exact ih _ _ _ _
          · refine .bind (skipNewlines_keeping hI hlist (fits_first _)) fun _ => ?_
            exact .bind lookToken_keeping fun _ => hclosed _ _ _ _ (ih _ _ _ _)

theorem listBody_keeping (closing : Closing) (allowEmpty : Bool) (opening : Position) :
    Keeping I ps (listBody d current rounds list closing allowEmpty opening) := by
  unfold listBody
  refine .bind (skipNewlines_keeping hI hlist (fits_first _)) fun _ => ?_
  refine .ite (fun _ => ?_) fun _ => listLoop_keeping hI hlist _ _ _ _ _ _ _
  exact .ite (fun _ => .pure _) fun _ => failHere_keeping hI _ _ _

end

/-- `parse_list` keeps what every operation keeps. -/
theorem parseList_keeping (hI : Preserved d I) (stack : ℕ) (ps : List Frame) (closing : Closing)
    (allowEmpty : Bool) (opening : Position) :
    Keeping I ps (parseList d current rounds stack closing allowEmpty opening) := by
  induction stack generalizing ps closing allowEmpty opening with
  | zero =>
    exact listBody_keeping hI (fun f hf => (by cases hf)) _ _ _
  | succ stack ih =>
    refine listBody_keeping hI (fun f hf => ?_) _ _ _
    cases hf
    exact ih

/-! ### The interface -/

theorem nestedList_keeping (hI : Preserved d I) (stack : ℕ) :
    ∀ f ∈ Session.nestedList d current rounds stack,
      ∀ ps closing allowEmpty opening, Keeping I ps (f closing allowEmpty opening) := by
  intro f hf
  cases stack with
  | zero => cases hf
  | succ stack =>
    cases hf
    exact parseList_keeping hI stack

theorem command_keeping (hI : Preserved d I) (stack : ℕ) :
    Keeping I ps (Session.command d current rounds stack) := by
  unfold Session.command
  refine .bind (skipNewlines_keeping hI (nestedList_keeping hI stack) (fits_first _)) fun r => ?_
  cases r with
  | none => exact .pure _
  | some word =>
    refine .bind position_keeping fun _ => .bind (parseList_keeping hI stack _ _ _ _) fun _ => .pure _

end Parse
end CShell
