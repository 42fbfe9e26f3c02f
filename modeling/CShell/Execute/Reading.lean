import CShell.Execute.Plan
import CShell.Expand.Assigning
import CShell.Parse.Document
import CShell.Traps.Table

/-!
# The executor with its parser, its words and its traps

The executor asks an environment for everything it does not do itself.  Here the
environment reads commands with the parser, expands words with the expander and gives
`trap` the trap table; what no command of these needs is left to another environment.

An expansion is asked for by the executor in any state, so that the counters it may not
change have to be kept in every state: `Assigned` says that they are.

No signal arrives and no job ends while the commands run, the stack suffices, and a
command that the parser made is valid.  The parser is given rounds; a call that would need
more of them fails here.

## Main definitions

* `planOf` — `plan_prepare`, from a syntax tree to a plan.
* `commandArguments` — `csh_command_arguments`.
* `traceCommand` — what `trace_command` leaves of the state.
* `Setting.environment` — the environment.

## Main results

* `commandArguments_assigned`, `traceCommand_assigned` — words and traces only assign.

## References

`src/execute.c`, `src/prepare.c`.
-/

namespace CShell
namespace Execute

open Parse

/-! ### Plans of trees -/

/-- What of a syntax tree the executor hands on. -/
inductive Node
  | simple (redirections : List Redirection) (words : List CommandWord)
  | compound (redirections : List Redirection)
  | word (word : Word)

namespace Node

def redirections : Node → List Redirection
  | simple redirections _ | compound redirections => redirections
  | word _ => []

def words : Node → List CommandWord
  | simple _ words => words
  | compound _ | word _ => []

end Node

mutual

/-- `plan_prepare`.  No pipeline of the parser is empty. -/
def planOf : Ast → Plan Node
  | .simple _ _ redirections words => .simple (.simple redirections words)
  | .pipeline _ _ negated commands =>
    match plansOf commands with
    | [] => .list []
    | first :: rest => .pipeline negated first rest
  | .binary _ _ true left right => .and (planOf left) (planOf right)
  | .binary _ _ false left right => .or (planOf left) (planOf right)
  | .list _ _ items => .list (listItemsOf items)
  | .group _ _ redirections true body => .subshell (.compound redirections) (planOf body)
  | .group _ _ redirections false body => .brace (.compound redirections) (planOf body)
  | .ifClause _ _ redirections branches none =>
    .ifClause (.compound redirections) (branchesOf branches) none
  | .ifClause _ _ redirections branches (some body) =>
    .ifClause (.compound redirections) (branchesOf branches) (some (planOf body))
  | .forClause _ _ redirections name hasIn words body =>
    .forClause (.compound redirections) (.word name) (if hasIn then some (words.map .word) else none)
      (planOf body)
  | .loop _ _ redirections untilClause condition body =>
    .loop (.compound redirections) (!untilClause) (planOf condition) (planOf body)
  | .caseClause _ _ redirections word items =>
    .caseClause (.compound redirections) (.word word) (caseItemsOf items)
  | .function _ _ redirections name body =>
    .function (.compound redirections) (.word name) (planOf body)

def plansOf : List Ast → List (Plan Node)
  | [] => []
  | tree :: rest => planOf tree :: plansOf rest

def listItemsOf : List ListItem → List (Bool × Plan Node)
  | [] => []
  | .mk command separator _ _ :: rest =>
    (decide (separator = .ampersand), planOf command) :: listItemsOf rest

def branchesOf : List Branch → List (Plan Node × Plan Node)
  | [] => []
  | .mk condition body :: rest => (planOf condition, planOf body) :: branchesOf rest

def caseItemsOf : List CaseItem → List (List Node × Plan Node × Bool)
  | [] => []
  | .mk patterns body terminator _ _ :: rest =>
    (patterns.map .word, planOf body, decide (terminator = .fallthrough)) :: caseItemsOf rest

end

/-! ### The surroundings -/

/-- The parsers that are open, the trap table, and what else there is. -/
structure World (X : Type) where
  opened : ℕ := 0
  inputs : ℕ → Session
  traps : Traps.Table
  rest : X

/-- What the parser, the expander and `trap` are given, and the environment for the rest.
`execute` runs the substitutions of a word, `substitutionStatus` is the status of the last
one among the words of a command. -/
structure Setting (X σ : Type) where
  host : Traps.Host σ
  expand : ExpandEnv
  rounds : ℕ
  parserStack : ℕ
  stack : ℕ
  execute : Word → Substitute (Function Node)
  substitutionStatus : List CommandWord → State (Function Node) → ℤ
  base : Env (World X) Node

variable {X σ : Type} (p : Setting X σ) {s : State (Function Node)}

/-! ### Arguments -/

/-- `assignment_name`: the name of an unquoted `NAME=` and the place behind it. -/
def assignmentName (token : Token) : Option (Bytes × ℕ) :=
  go token.fragments []
where
  /-- The bytes of one fragment, the first of them at `place`. -/
  bytes : Bytes → ℕ → Bytes → Bytes ⊕ Option (Bytes × ℕ)
    | [], _, used => .inl used
    | byte :: rest, place, used =>
      if byte = byteOf '=' ∧ used ≠ [] then .inr (some (used, place + 1))
      else if nameStart byte || (!used.isEmpty && digit byte) then
        bytes rest (place + 1) (used ++ [byte])
      else .inr none
  go : List Fragment → Bytes → Option (Bytes × ℕ)
    | [], _ => none
    | f :: rest, used =>
      if f.kind = .continuation then go rest used
      else if f.kind = .text ∧ f.quote = .none ∧ f.parent = none then
        match bytes (fragmentBytes token f) f.begin used with
        | .inl used => go rest used
        | .inr answer => answer
      else none

/-- An option of `command` made of `p` alone. -/
def pathOption (word : Bytes) : Bool :=
  word.head? == some (byteOf '-') && !word.tail.isEmpty && word.tail.all (· == byteOf 'p')

theorem length_skipDashes (args : List Bytes) : (skipDashes args).length ≤ args.length := by
  unfold skipDashes
  cases args with
  | nil => exact Nat.le_refl _
  | cons arg args =>
    dsimp only
    split
    · exact Nat.le_succ _
    · exact Nat.le_refl _

/-- The arguments from the name of the utility on, over `command` and its options. -/
def utilityArguments : List Bytes → List Bytes
  | [] => []
  | word :: rest =>
    if word = ascii "command" then utilityArguments (skipDashes (rest.dropWhile pathOption))
    else word :: rest
termination_by argv => argv.length
decreasing_by
  have hdrop := (List.dropWhile_suffix pathOption (l := rest)).length_le
  have hskip := length_skipDashes (rest.dropWhile pathOption)
  simp only [List.length_cons]
  omega

/-- Whether the arguments so far make the next one a declaration. -/
def declaration (argv : List Bytes) : Bool :=
  match utilityArguments argv with
  | [] => false
  | name :: _ => name == ascii "export" || name == ascii "readonly"

/-- The text of a message. -/
def messageText (text : Bytes) : String := String.ofList (text.map fun byte => Char.ofNat byte.toNat)

/-- What the executor keeps of an error. -/
def prepareFailure (e : PrepareError) : Failure := ⟨messageText e.message, e.status⟩

/-- The fields of a word that is no assignment. -/
def argumentFields (s : State (Function Node)) (argv : List Bytes) (word : Word) :
    Except PrepareError (List Bytes) × State (Function Node) :=
  match if declaration argv then assignmentName word.token else none with
  | some (name, offset) =>
    match prepareScalar p.expand p.stack (p.execute word) s word.token offset .assignment with
    | (.ok value, s) => (.ok [name ++ [byteOf '='] ++ value], s)
    | (.error e, s) => (.error e, s)
  | none => prepareFields p.expand p.stack (p.execute word) s word.token 0 .argument

/-- `csh_command_arguments`, behind the arguments so far. -/
def commandArguments (s : State (Function Node)) (argv : List Bytes) :
    List CommandWord → Except PrepareError (List Bytes) × State (Function Node)
  | [] => (.ok argv, s)
  | source :: rest =>
    if source.isAssignment then
      match assignmentName source.word.token with
      | none => (.error (.make "invalid assignment word" 0), s)
      | some (name, _) =>
        if hasBit (s.getVariable name).2.attributes Attr.readonly then
          (.error { PrepareError.make "cannot assign to readonly variable" 0 with status := 1 }, s)
        else commandArguments s argv rest
    else
      match argumentFields p s argv source.word with
      | (.error e, s) => (.error e, s)
      | (.ok fields, s) => commandArguments s (argv ++ fields) rest

theorem argumentFields_assigned (s : State (Function Node)) (argv : List Bytes) (word : Word) :
    s.Assigned (argumentFields p s argv word).2 := by
  unfold argumentFields
  split
  · next name offset _ =>
    have hscalar := prepareScalar_assigned p.expand p.stack (p.execute word) s word.token offset .assignment
    split
    all_goals
      next heq =>
      rw [heq] at hscalar
      exact hscalar
  · exact prepareFields_assigned _ _ _ _ _ _ _

/-- The words of a command only assign. -/
theorem commandArguments_assigned (s : State (Function Node)) (argv : List Bytes)
    (words : List CommandWord) : s.Assigned (commandArguments p s argv words).2 := by
  induction words generalizing s argv with
  | nil => exact .refl s
  | cons source rest ih =>
    unfold commandArguments
    split
    · split
      · exact .refl s
      · split
        · exact .refl s
        · exact ih s argv
    · have hfields := argumentFields_assigned p s argv source.word
      split
      · next heq =>
        rw [heq] at hfields
        exact hfields
      · next heq =>
        rw [heq] at hfields
        exact hfields.trans (ih _ _)

/-! ### Traces -/

/-- What `trace_command` leaves of the state: `PS4` is read like a here-document. -/
def traceCommand (s : State (Function Node)) : State (Function Node) :=
  if !s.option Opt.xtrace then s
  else
    match parserDocument p.expand.lexical p.expand.current p.rounds p.parserStack
      ((s.getVariable (ascii "PS4")).2.value.getD (ascii "+ ")) with
    | some (.ok word) =>
      (prepareFields p.expand p.stack (p.execute word) s word.token 0 .heredoc).2
    | _ => s

/-- A trace only assigns. -/
theorem traceCommand_assigned (s : State (Function Node)) : s.Assigned (traceCommand p s) := by
  unfold traceCommand
  split
  · exact .refl s
  · split
    · exact prepareFields_assigned _ _ _ _ _ _ _
    · exact .refl s

/-! ### Reading -/

/-- `csh_input_from_string`. -/
def inputFromString (text : Bytes) (name : String) : Query (World X) (Function Node) (Except Failure ℕ) :=
  fun w _ =>
    let input : Input := { name := ascii name, incoming := text.map .byte }
    (.ok w.opened, { w with
      opened := w.opened + 1, inputs := Function.update w.inputs w.opened (Session.create input) })

/-- The aliases of a state, as the parser is given them. -/
def aliasTable (s : State (Function Node)) : Option (Bytes → Option Bytes) := s.aliases.map Alias.get

/-- One round of the loop of `evaluate_input`: the aliases are set and a command is read. -/
def parserNext (handle : ℕ) : Query (World X) (Function Node) (Parsed Node) :=
  fun w s =>
    let session := (w.inputs handle).setAliases (aliasTable s)
    match session.next p.expand.lexical p.expand.current p.rounds p.parserStack with
    | some (.next .tree (some tree), session) =>
      (.tree (planOf tree), { w with inputs := Function.update w.inputs handle session })
    | some (.next .eof _, session) =>
      (.eof, { w with inputs := Function.update w.inputs handle session })
    | some (_, session) =>
      let failure := session.parser.failure.getD { message := [] }
      (.failed ⟨messageText failure.message, failure.status⟩ session.parser.input.failure.isSome,
        { w with inputs := Function.update w.inputs handle session })
    | none => (.failed ⟨"the parser needs more rounds", 1⟩ false, w)

/-- The mode `csh_prepare_word` is asked for. -/
def expandMode : WordContext → ExpandContext
  | .argument => .argument
  | .pattern => .pattern
  | .redirection => .redirection

/-- `csh_prepare_word`. -/
def prepareWord (node : Node) (mode : WordContext) (s : State (Function Node)) :
    Except PrepareError (List Bytes) × State (Function Node) :=
  match node with
  | .word word =>
    prepareFields p.expand p.stack (p.execute word) s word.token 0 (expandMode mode)
  | _ => (.error (.make "invalid word" 0), s)

theorem prepareWord_assigned (node : Node) (mode : WordContext) (s : State (Function Node)) :
    s.Assigned (prepareWord p node mode s).2 := by
  unfold prepareWord
  split
  · exact prepareFields_assigned _ _ _ _ _ _ _
  · exact .refl s

/-- What only assigns keeps the counters. -/
theorem depths_assigned {s' : State (Function Node)} (h : s.Assigned s') : s'.depths = s.depths := by
  unfold State.depths
  rw [h.info]

/-- `csh_jobs_is_builtin`. -/
def jobsBuiltinName (name : Bytes) : Bool :=
  (["jobs", "fg", "bg", "wait", "kill", "set"].map ascii).contains name

/-- The environment of the parser, the expander and `trap`. -/
def Setting.environment : Env (World X) Node :=
  { p.base with
    stackExhausted := fun w _ => (false, w)
    prepareWord := fun node mode =>
      ⟨fun w s => ((prepareWord p node mode s).1.mapError prepareFailure, w, (prepareWord p node mode s).2),
        fun _ s => depths_assigned (prepareWord_assigned p node mode s)⟩
    arguments := fun node =>
      ⟨fun w s =>
        let r := commandArguments p s [] node.words
        ((r.1.mapError prepareFailure).map fun argv =>
          { argv, substitutionStatus := p.substitutionStatus node.words s }, w, r.2),
        fun _ s => depths_assigned (commandArguments_assigned p s [] node.words)⟩
    validate := fun _ w _ => (.ok (), w)
    assignments := fun node command =>
      if node.words.any CommandWord.isAssignment then p.base.assignments node command
      else ⟨fun w s => (.ok command, w, s), fun _ _ => rfl⟩
    hasRedirects := fun node => !node.redirections.isEmpty
    trace := fun _ =>
      ⟨fun w s => ((), w, traceCommand p s), fun _ s => depths_assigned (traceCommand_assigned p s)⟩
    -- only the directories of pwd are looked at
    pathBuiltinCategory := fun name defaults command w s =>
      let (category, w') := p.base.pathBuiltinCategory name defaults command w s
      (category, if name = ascii "pwd" then w' else w)
    isJobsBuiltin := jobsBuiltinName
    trapsBuiltin := fun _ command w _ =>
      let answer := p.host.trapsBuiltin w.traps command.argv
      (answer.status, { w with traps := answer.table })
    inputFromString := inputFromString
    parserNext := parserNext p
    reap := fun w _ => (none, w)
    prepare := fun _ w _ => (none, w)
    trapsFirstPending := fun w _ => (0, w) }

end Execute
end CShell
