import CShell.Execute.Reading
import CShell.Parse.Commands
import CShell.Quoting.Reinput

/-!
# Evaluating a listing

The lines of `trap -p` are read one after another, each as a simple command of four
words.  The executor expands the words, finds `trap` among the special builtins and runs
it on the table; nothing else in the shell is changed but `$?`.

The action is the one word that an expansion may change or refuse.  What `trap` is handed
is left open here: a line hands an operand to `trap`, or it does not come to that.

## Main definitions

* `lineWord`, `lineRest` — the words of a line.
* `Kept s s'` — the options and the aliases are as they were.
* `Hands p options action operand` — what becomes of a quoted action.
* `lineStep` — what a line makes of the table.

## Main results

* `prepareFields_read`, `prepareFields_broken` — the expansion of a quoted word.
* `executeContextAst_line` — **a line runs `trap` on the operand it is handed.**
* `evaluateLoop_lines` — **evaluating lines is folding over them.**

## References

`src/execute.c`, `src/prepare.c`, `src/traps.c`.
-/

namespace CShell
namespace Traps

open Quoting Parse Execute Expand List

variable {σ X : Type} {host : Host σ} {p : Setting X σ}

/-! ### The words of a line -/

/-- A word without quotes. -/
def bareWord (text : Bytes) (hne : text ≠ []) (h : ∀ byte ∈ text, ordinary byte = true) : Spelled :=
  ⟨text, [], h, by simp, .inl hne⟩

/-- A word in quotes. -/
def quotedWord (action : Bytes) (h : NulFree action) : Spelled :=
  ⟨[], partsFrom [] action, by simp, fine_partsFrom (by simp) h, .inr (partsFrom_ne_nil [] action)⟩

/-- The first word of a line. -/
def lineWord : Spelled :=
  bareWord (ascii "trap") (by decide) (List.all_eq_true.mp (by decide +kernel))

/-- The words behind it. -/
def lineRest {number : ℕ} (hnumber : number ∈ host.listed) {action : Bytes} (h : NulFree action) :
    List Spelled :=
  [bareWord (ascii "--") (by decide) (List.all_eq_true.mp (by decide +kernel)), quotedWord action h,
    bareWord (host.name number) (name_ordinary hnumber).1 (name_ordinary hnumber).2]

theorem line_eq {number : ℕ} (hnumber : number ∈ host.listed) {action : Bytes} (h : NulFree action) :
    host.line number action = lineWord.text ++ tailText (lineRest hnumber h) := by
  have haction : (quotedWord action h).text = quoteAction action := by
    unfold Spelled.text quotedWord
    rw [spelling_partsFrom]
    rfl
  have hbare : ∀ text hne hord, (bareWord text hne hord).text = text :=
    fun text _ _ => append_nil text
  have hopening : ascii "trap -- " = ascii "trap" ++ [byteOf ' '] ++ ascii "--" ++ [byteOf ' '] := by decide
  unfold Host.line lineRest lineWord
  simp only [tailText, haction, hbare, hopening, append_assoc, cons_append, nil_append]

/-- A line is a line. -/
theorem lined_line (number : ℕ) (action : Bytes) : Lined (host.line number action) :=
  .inr getLast?_concat

theorem lined_lines (lines : List ℕ) (action : ℕ → Bytes) :
    Lined (lines.flatMap fun number => host.line number (action number)) := by
  induction lines with
  | nil => exact .inl rfl
  | cons number lines ih =>
    rw [flatMap_cons]
    exact (lined_line number (action number)).append ih

/-! ### The expansion of a word -/

section

variable {F : Type} {env : ExpandEnv} {stack : ℕ} {s : State F} {t : Token} {lead : Bytes} {parts : List Part}

/-- A quoted word without wildcards is read, and so is any under `noglob`. -/
theorem prepareFields_read (h : QuotedWord t lead parts) (hstack : 2 ≤ stack) (hs : s.Reachable)
    (substitute : Substitute F) (hread : hasBit s.info.options Opt.noglob = true ∨
      hasPattern env.current (protectBy env.current (meaning parts)) = false) :
    prepareFields env stack substitute s t 0 .argument = (.ok [lead ++ meaning parts], s) := by
  have hfields : finishFields env .argument (ifsOf s) s.info.options [wordSpans lead parts] {} =
      (.ok, { fields := [lead ++ meaning parts] }) := by
    rw [expandFields_wordSpans h]
    rcases hread with hglob | hpattern
    · rw [if_pos hglob]
    · rw [pathnameExpand_of_not_hasPattern (by rwa [hasPattern_lead h.ordinary])]
      simp [Output.append]
  unfold prepareFields
  rw [if_neg (Nat.not_lt_zero _)]
  simp only [if_true, hs.save_eq]
  rw [expandWord_quotedWord h hstack hs.save_eq rfl]
  simp only [if_true, expandFields, hfields]

/-- A wildcard that the detector sees fails on a broken file system. -/
theorem prepareFields_broken (h : QuotedWord t lead parts) (hstack : 2 ≤ stack) (hs : s.Reachable)
    (substitute : Substitute F) (hglob : ¬ hasBit s.info.options Opt.noglob = true)
    (hpattern : hasPattern env.current (protectBy env.current (meaning parts)) = true)
    (hfs : env.fs = broken) :
    ∃ e, prepareFields env stack substitute s t 0 .argument = (.error e, s) := by
  have hfields : (finishFields env .argument (ifsOf s) s.info.options [wordSpans lead parts] {}).1 ≠ .ok := by
    rw [expandFields_wordSpans h, if_neg hglob, hfs]
    exact pathnameExpand_broken (by rwa [hasPattern_lead h.ordinary]) _ _
  unfold prepareFields
  rw [if_neg (Nat.not_lt_zero _)]
  simp only [if_true, hs.save_eq]
  rw [expandWord_quotedWord h hstack hs.save_eq rfl]
  simp only [if_true, expandFields]
  generalize finishFields env .argument (ifsOf s) s.info.options [wordSpans lead parts] {} = r at hfields ⊢
  obtain ⟨result, out⟩ := r
  cases result with
  | ok => exact absurd rfl hfields
  | _ => exact ⟨_, rfl⟩

end

/-! ### The arguments of a line -/

/-- What becomes of a quoted action in a shell with these options: `trap` is handed an
operand, or the command is not run, or the expansion fails. -/
def Hands (p : Setting X σ) (options : UInt32) (action : Bytes) : Option Bytes → Prop
  | some operand => ¬ hasBit options Opt.noexec = true ∧
      ∀ (s : State (Function Node)) (word : Word), s.Reachable → s.info.options = options →
        QuotedWord word.token [] (partsFrom [] action) →
        prepareFields p.expand p.stack (p.execute word) s word.token 0 .argument = (.ok [operand], s)
  | none => hasBit options Opt.noexec = true ∨
      ∀ (s : State (Function Node)) (word : Word), s.Reachable → s.info.options = options →
        QuotedWord word.token [] (partsFrom [] action) →
        ∃ e, prepareFields p.expand p.stack (p.execute word) s word.token 0 .argument = (.error e, s)

section

variable {s : State (Function Node)} {number : ℕ} {action : Bytes} {words : List CommandWord}

/-- `trap` makes no declaration of its operands. -/
theorem declaration_trap (args : List Bytes) :
    declaration [] = false ∧ declaration (ascii "trap" :: args) = false := by
  constructor
  · unfold declaration
    rw [utilityArguments]
  · unfold declaration
    rw [utilityArguments, if_neg (by decide)]
    exact (by decide : (ascii "trap" == ascii "export" || ascii "trap" == ascii "readonly") = false)

theorem commandArguments_word {argv : List Bytes} (hdeclaration : declaration argv = false) (word : Word)
    (rest : List CommandWord) :
    commandArguments p s argv (.mk word false :: rest) =
      match prepareFields p.expand p.stack (p.execute word) s word.token 0 .argument with
      | (.error e, s) => (.error e, s)
      | (.ok fields, s) => commandArguments p s (argv ++ fields) rest := by
  have hfields : argumentFields p s argv word =
      prepareFields p.expand p.stack (p.execute word) s word.token 0 .argument := by
    unfold argumentFields
    rw [hdeclaration]
    rfl
  rw [commandArguments, if_neg (by simp [CommandWord.isAssignment])]
  show (match argumentFields p s argv word with
    | (Except.error e, s) => (Except.error e, s)
    | (Except.ok fields, s) => commandArguments p s (argv ++ fields) rest) = _
  rw [hfields]

/-- A word without quotes is its own argument. -/
theorem commandArguments_bare {argv : List Bytes} (hdeclaration : declaration argv = false) {t : Token}
    {lead : Bytes} (h : QuotedWord t lead []) (hstack : 2 ≤ p.stack) (hs : s.Reachable)
    (rest : List CommandWord) :
    commandArguments p s argv (.mk (.mk t []) false :: rest) = commandArguments p s (argv ++ [lead]) rest := by
  have hplain : hasPattern p.expand.current (protectBy p.expand.current (meaning [])) = false := by
    rw [meaning_nil, protectBy, hasPattern]
  have hread := prepareFields_read h hstack hs (p.execute (.mk t [])) (.inr hplain)
  rw [commandArguments_word hdeclaration]
  rw [show (Word.mk t []).token = t from rfl, hread, meaning_nil, append_nil]

/-- The words of a line up to the action, and what stands behind it. -/
theorem commandArguments_opening {hnumber : number ∈ host.listed} {h : NulFree action}
    (hmade : MadeOf words (lineWord :: lineRest hnumber h)) (hstack : 2 ≤ p.stack) (hs : s.Reachable) :
    ∃ t name, QuotedWord t [] (partsFrom [] action) ∧ QuotedWord name (host.name number) [] ∧
      commandArguments p s [] words = commandArguments p s [ascii "trap", ascii "--"]
        [.mk (.mk t []) false, .mk (.mk name []) false] := by
  unfold MadeOf lineRest lineWord at hmade
  obtain ⟨_, rest₀, ⟨t₀, rfl, h₀⟩, hmade₀, rfl⟩ := forall₂_cons_right_iff.mp hmade
  obtain ⟨_, rest₁, ⟨t₁, rfl, h₁⟩, hmade₁, rfl⟩ := forall₂_cons_right_iff.mp hmade₀
  obtain ⟨_, rest₂, ⟨t₂, rfl, h₂⟩, hmade₂, rfl⟩ := forall₂_cons_right_iff.mp hmade₁
  obtain ⟨_, rest₃, ⟨t₃, rfl, h₃⟩, hmade₃, rfl⟩ := forall₂_cons_right_iff.mp hmade₂
  cases hmade₃
  refine ⟨t₂, t₃, h₂.word, h₃.word, ?_⟩
  rw [commandArguments_bare (declaration_trap []).1 h₀.word hstack hs]
  exact commandArguments_bare (declaration_trap []).2 h₁.word hstack hs _

/-- The arguments of a line that hands an operand to `trap`. -/
theorem commandArguments_some {hnumber : number ∈ host.listed} {h : NulFree action}
    (hmade : MadeOf words (lineWord :: lineRest hnumber h)) (hstack : 2 ≤ p.stack) (hs : s.Reachable)
    {operand : Bytes} (hhands : Hands p s.info.options action (some operand)) :
    commandArguments p s [] words = (.ok (host.lineWords number operand), s) := by
  obtain ⟨t, name, haction, hname, hopening⟩ := commandArguments_opening (p := p) hmade hstack hs
  have hread := hhands.2 s (.mk t []) hs rfl haction
  rw [hopening, commandArguments_word (declaration_trap _).2, hread]
  exact commandArguments_bare (declaration_trap _).2 hname hstack hs []

/-- A line whose action does not expand. -/
theorem commandArguments_none {hnumber : number ∈ host.listed} {h : NulFree action}
    (hmade : MadeOf words (lineWord :: lineRest hnumber h)) (hstack : 2 ≤ p.stack) (hs : s.Reachable)
    (hexec : ¬ hasBit s.info.options Opt.noexec = true) (hhands : Hands p s.info.options action none) :
    ∃ e, commandArguments p s [] words = (.error e, s) := by
  obtain ⟨t, name, haction, hname, hopening⟩ := commandArguments_opening (p := p) hmade hstack hs
  obtain ⟨e, hfails⟩ := hhands.resolve_left hexec s (.mk t []) hs rfl haction
  refine ⟨e, ?_⟩
  rw [hopening, commandArguments_word (declaration_trap _).2, hfails]

end

/-! ### What a command leaves -/

/-- The options and the aliases are as they were. -/
structure Kept (s s' : State (Function Node)) : Prop where
  reachable : s'.Reachable
  options : s'.info.options = s.info.options
  aliases : s'.aliases = s.aliases

theorem Kept.refl {s : State (Function Node)} (h : s.Reachable) : Kept s s := ⟨h, rfl, rfl⟩

theorem Kept.trans {s s' s'' : State (Function Node)} (h : Kept s s') (h' : Kept s' s'') : Kept s s'' :=
  ⟨h'.reachable, h'.options.trans h.options, h'.aliases.trans h.aliases⟩

theorem Kept.of_assigned {s s' : State (Function Node)} (hs : s.Reachable) (h : s.Assigned s') :
    Kept s s' := ⟨h.reachable hs, congrArg Info.options h.info, (h.rest hs).1⟩

theorem Kept.setStatus {s s' : State (Function Node)} (h : Kept s s') (status : ℤ) :
    Kept s (s'.setStatus status).2 := by
  refine h.trans ⟨.setStatus h.reachable status, ?_, ?_⟩
  all_goals
    unfold State.setStatus
    split <;> rfl

/-- What a command leaves of the shell: the table is `t`, the parsers are untouched. -/
structure Leaves (sh : Execute.Shell (World X) Node) (a : Execute.Answer (World X) Node) (t : Table) : Prop where
  inputs : a.shell.world.inputs = sh.world.inputs
  traps : a.shell.world.traps = t
  state : Kept sh.state a.shell.state

theorem Leaves.of_shell {sh : Execute.Shell (World X) Node} {a a' : Execute.Answer (World X) Node} {t : Table}
    (h : Leaves sh a t) (hworld : a'.shell.world = a.shell.world) (hstate : Kept a.shell.state a'.shell.state) :
    Leaves sh a' t :=
  ⟨(congrArg World.inputs hworld).trans h.inputs, (congrArg World.traps hworld).trans h.traps,
    h.state.trans hstate⟩

/-! ### The command -/

theorem no_assignment {words : List CommandWord} {ws : List Spelled} (h : MadeOf words ws) :
    words.any CommandWord.isAssignment = false := by
  induction h with
  | nil => rfl
  | cons hw _ ih =>
    obtain ⟨t, rfl, -⟩ := hw
    rw [any_cons, ih]
    rfl

section

variable {exec : Execute.Shell (World X) Node → Plan Node → Option (Execute.Answer (World X) Node)}
  {sh : Execute.Shell (World X) Node} {words : List CommandWord}

/-- The category of `trap`, wherever it is looked up. -/
theorem validatedCategory_trap (sh : Execute.Shell (World X) Node) {command : Command} {args : List Bytes}
    (hargv : command.argv = ascii "trap" :: args) :
    validatedCategory p.environment sh command = (.specialBuiltin, sh) := by
  unfold validatedCategory
  rw [hargv]
  dsimp only
  unfold commandCategory
  have hquery : ∃ category, Query.on (p.environment.pathBuiltinCategory (ascii "trap") false command) sh =
      (category, sh) := by
    refine ⟨(p.base.pathBuiltinCategory (ascii "trap") false command sh.world sh.state).1, ?_⟩
    unfold Query.on Setting.environment
    dsimp only
    rw [if_neg (by decide)]
  obtain ⟨category, hcategory⟩ := hquery
  rw [hcategory]
  dsimp only
  rw [if_pos (by decide)]

/-- The shell behind a call of `trap`. -/
def ran (p : Setting X σ) (sh : Execute.Shell (World X) Node) (argv : List Bytes) : Execute.Shell (World X) Node :=
  { sh with world := { sh.world with traps := (p.host.trapsBuiltin sh.world.traps argv).table } }

theorem bootstrapHandler_trap
    (resolved : Execute.Shell (World X) Node → Command → Category → Handler → Option (Execute.Answer (World X) Node))
    (fuel : ℕ) (command : Command) (args : List Bytes) {result : Execution}
    (hcategory : result.category = .specialBuiltin) :
    bootstrapHandler p.environment exec resolved fuel sh command (ascii "trap") args result =
      some { result := { result with status := (p.host.trapsBuiltin sh.world.traps command.argv).status },
             shell := ran p sh command.argv } := by
  unfold bootstrapHandler
  rw [if_neg (by decide), if_neg (by rw [hcategory]; decide), if_neg (by decide), if_neg (by decide),
    if_neg (by decide), if_pos (by decide)]
  rfl

theorem executeResolved_trap {command : Command} {args : List Bytes}
    (hargv : command.argv = ascii "trap" :: args) (hassignments : command.assignments = []) (fuel : ℕ) :
    executeResolved p.environment exec (fuel + 1) sh command .specialBuiltin .bootstrap =
      some (resolvedEnd command []
        { result := { category := .specialBuiltin,
                      status := (p.host.trapsBuiltin sh.world.traps command.argv).status },
          shell := ran p sh command.argv }) := by
  have hresolvable : resolvable command .specialBuiltin .bootstrap = true := by
    unfold resolvable
    rw [hargv]
    rfl
  have happly : assignmentsApply sh.state command .specialBuiltin = (.ok [], sh.state) := by
    unfold assignmentsApply
    rw [hassignments]
    rfl
  have hboot := @bootstrapHandler_trap σ X p exec sh (executeResolved p.environment exec fuel) fuel command args
    { category := .specialBuiltin } rfl
  rw [executeResolved, hresolvable, if_neg (by simp), happly]
  dsimp only
  rw [if_neg (by decide), hargv]
  dsimp only
  rw [show sh.withState sh.state = sh from rfl]
  simp only [hboot]
  rw [← hargv]
  rfl

/-- A failure of `trap` is no failure of a special builtin. -/
theorem resolvedEnd_trap {command : Command} {args : List Bytes} (hargv : command.argv = ascii "trap" :: args)
    {a : Execute.Answer (World X) Node} (hfailure : a.failure = none) :
    resolvedEnd command [] a = { a with shell := a.shell.setStatus a.result.status } := by
  have hlenient : (["eval", ".", "trap"].map ascii).contains (command.argv.headD []) = true := by
    rw [hargv]
    exact (by decide : (["eval", ".", "trap"].map ascii).contains (ascii "trap") = true)
  have hfail : a.failStatus = a := by
    unfold Execute.Answer.failStatus
    rw [hfailure]
  unfold resolvedEnd
  dsimp only
  rw [hfail, hlenient, if_neg (by simp [hfailure])]
  rfl

/-- `trap` runs on the table. -/
theorem simpleDispatch_trap (hs : sh.state.Reachable) {command : Command} {args : List Bytes}
    (hargv : command.argv = ascii "trap" :: args) (hassignments : command.assignments = []) (fuel : ℕ) :
    let answer := p.host.trapsBuiltin sh.world.traps command.argv
    ∃ a, simpleDispatch p.environment exec (fuel + 1) false sh command = some a ∧ a.failure = none ∧
      a.replaced = none ∧ a.result = { category := .specialBuiltin, status := answer.status } ∧
      Leaves sh a answer.table := by
  intro answer
  let traced : Execute.Shell (World X) Node := sh.withState (traceCommand p sh.state)
  have htrace : (p.environment.trace command).on sh = ((), traced) := rfl
  have hmanaged : managed p.environment traced command.argv = false := by
    unfold managed
    rw [hargv]
    have hname : p.environment.isJobsBuiltin (ascii "trap") = false :=
      (by decide : jobsBuiltinName (ascii "trap") = false)
    simp [hname]
  have hselect : selectHandler (Category.specialBuiltin != .function && false) command .specialBuiltin =
      (.specialBuiltin, .bootstrap) := rfl
  refine ⟨{ result := { category := .specialBuiltin, status := answer.status },
            shell := (ran p traced command.argv).setStatus answer.status }, ?_, rfl, rfl, rfl, ?_⟩
  · unfold simpleDispatch
    rw [validatedCategory_trap sh hargv]
    dsimp only
    rw [htrace]
    dsimp only
    rw [hmanaged, hselect]
    dsimp only
    rw [if_neg (by decide), if_neg (by simp), executeResolved_trap hargv hassignments fuel,
      resolvedEnd_trap hargv rfl]
    rfl
  · have hkept : Kept sh.state (traceCommand p sh.state) := .of_assigned hs (traceCommand_assigned p sh.state)
    exact ⟨rfl, rfl, hkept.setStatus _⟩

variable {number : ℕ} {action : Bytes} {hnumber : number ∈ p.host.listed} {h : NulFree action}

/-- A line that hands an operand to `trap`. -/
theorem runtimeSimple_some (hmade : MadeOf words (lineWord :: lineRest hnumber h)) (hstack : 2 ≤ p.stack)
    (hs : sh.state.Reachable) {operand : Bytes} (hhands : Hands p sh.state.info.options action (some operand))
    (fuel : ℕ) :
    let answer := p.host.trapsBuiltin sh.world.traps (p.host.lineWords number operand)
    ∃ a, runtimeSimple p.environment exec (fuel + 1) false sh (.simple [] words) = some a ∧
      a.failure = none ∧ a.result = { category := .specialBuiltin, status := answer.status } ∧
      Leaves sh a answer.table := by
  intro answer
  let command : Command :=
    { argv := p.host.lineWords number operand, substitutionStatus := p.substitutionStatus words sh.state }
  have hwords := commandArguments_some hmade hstack hs hhands
  have harguments : (p.environment.arguments (.simple [] words)).on sh = (.ok command, sh) := by
    unfold Prim.on Setting.environment Node.words
    dsimp only
    rw [hwords]
    rfl
  have hassignments : (p.environment.assignments (.simple [] words) command).on sh = (.ok command, sh) := by
    unfold Setting.environment Node.words
    dsimp only
    rw [no_assignment hmade, if_neg (by simp)]
    rfl
  obtain ⟨⟨result, failure, replaced, shell⟩, hdispatch, rfl, rfl, rfl, hleaves⟩ :=
    @simpleDispatch_trap σ X p exec sh hs command [ascii "--", operand, p.host.name number] rfl rfl fuel
  refine ⟨_, ?_, rfl, rfl, hleaves⟩
  unfold runtimeSimple
  rw [harguments]
  dsimp only
  rw [show Query.on (p.environment.validate command) sh = (.ok (), sh) from rfl]
  dsimp only
  rw [validatedCategory_trap sh (show command.argv = ascii "trap" :: _ from rfl)]
  dsimp only
  rw [show simpleRedirects p.environment sh (.simple [] words) command = (.applied, command, sh) from rfl]
  dsimp only
  rw [hassignments]
  dsimp only
  rw [hdispatch]
  rfl

/-- A line whose action does not expand. -/
theorem runtimeSimple_none (hmade : MadeOf words (lineWord :: lineRest hnumber h)) (hstack : 2 ≤ p.stack)
    (hs : sh.state.Reachable) (hexec : ¬ hasBit sh.state.info.options Opt.noexec = true)
    (hhands : Hands p sh.state.info.options action none) (fuel : ℕ) :
    ∃ a, runtimeSimple p.environment exec fuel false sh (.simple [] words) = some a ∧
      Leaves sh a sh.world.traps := by
  obtain ⟨e, hwords⟩ := commandArguments_none hmade hstack hs hexec hhands
  have harguments : (p.environment.arguments (.simple [] words)).on sh = (.error (prepareFailure e), sh) := by
    unfold Prim.on Setting.environment Node.words
    dsimp only
    rw [hwords]
    rfl
  have hend : ∃ a, simpleEnd p.environment (.simple [] words) false
      { result := expansionFailed sh {}, failure := some (prepareFailure e), shell := sh } = a ∧ a.shell = sh :=
    ⟨_, rfl, rfl⟩
  obtain ⟨a, hend, hshell⟩ := hend
  refine ⟨a, ?_, ?_⟩
  · unfold runtimeSimple
    rw [harguments]
    exact congrArg some hend
  · exact ⟨by rw [hshell], by rw [hshell], by rw [hshell]; exact .refl hs⟩

end

/-! ### The plan of a line -/

/-- A result that stops nothing. -/
structure Clean (result : Execution) : Prop where
  control : result.control = .none
  status : result.status = 0
  exit : result.exitRequested = false
  suspended : result.jobSuspended = false
  special : result.specialBuiltinError = false

section

variable {exec : Execute.Shell (World X) Node → Plan Node → Option (Execute.Answer (World X) Node)}
  {sh : Execute.Shell (World X) Node} {words : List CommandWord}

theorem Clean.not_stopped {result : Execution} (h : Clean result) (sh : Execute.Shell (World X) Node) :
    stopped sh result = false := by
  unfold stopped
  rw [h.suspended, h.control, h.exit, h.special]
  rfl

/-- `errexit` asks for nothing. -/
theorem Clean.applyErrexit {result : Execution} (h : Clean result) (sh : Execute.Shell (World X) Node)
    (plan : Plan Node) : Clean (applyErrexit sh plan result) := by
  obtain ⟨control, levels, status, retain, redirection, special, ignored, suspended, exit, category⟩ := result
  obtain ⟨rfl, rfl, rfl, rfl, rfl⟩ := h
  unfold Execute.applyErrexit
  by_cases hignored : sh.state.info.errexitIgnored = 0
  · cases plan
    all_goals
      simp only [hignored, ne_eq, not_true_eq_false, if_false, decide_false, Bool.and_false, Bool.false_and,
        Bool.false_eq_true]
      exact ⟨rfl, rfl, rfl, rfl, rfl⟩
  · cases plan
    all_goals
      simp only [hignored, ne_eq, not_true_eq_false, not_false_eq_true, if_true, if_false, decide_false,
        Bool.and_false, Bool.false_and, Bool.false_eq_true]
      exact ⟨rfl, rfl, rfl, rfl, rfl⟩

/-- No signal is pending. -/
theorem executePendingTraps_quiet (fuel : ℕ) (result : Execution) (sh : Execute.Shell (World X) Node) :
    ∃ sh', Execute.executePendingTraps p.environment exec fuel result sh = some { result, shell := sh' } ∧
      sh'.world = sh.world ∧ sh'.state = sh.state := by
  unfold Execute.executePendingTraps
  split
  · exact ⟨sh, rfl, rfl, rfl⟩
  · exact ⟨_, rfl, rfl, rfl⟩

/-- The end of a node keeps what the node left. -/
theorem planEnd_leaves {a : Execute.Answer (World X) Node} {t : Table} (h : Leaves sh a t) (fuel : ℕ)
    (plan : Plan Node) :
    ∃ a', planEnd p.environment exec fuel plan a = some a' ∧ Leaves sh a' t ∧
      (a.failure = none → Clean a.result → a'.failure = none ∧ Clean a'.result) := by
  have hfailed : ∀ a : Execute.Answer (World X) Node, a.failStatus.shell = a.shell := by
    intro a
    unfold Execute.Answer.failStatus
    split <;> rfl
  unfold planEnd
  dsimp only
  generalize ha' : (if a.failStatus.failure.isSome && a.failStatus.result.redirectionFailed then
      { a.failStatus with
        failure := none, result := { a.failStatus.result with redirectionFailed := false } }
    else a.failStatus : Execute.Answer (World X) Node) = a'
  have hshell : a'.shell = a.shell := by
    rw [← ha']
    split
    all_goals exact hfailed a
  obtain ⟨sh', hpending, hworld, hstate⟩ := @executePendingTraps_quiet σ X p exec fuel
    (applyErrexit a'.shell plan a'.result) (a'.shell.setStatus (applyErrexit a'.shell plan a'.result).status)
  have hanswer : Execute.executePendingTraps p.environment exec fuel (applyErrexit a'.shell plan a'.result)
      (Execute.Answer.settled { a' with result := applyErrexit a'.shell plan a'.result }).shell =
      some { result := applyErrexit a'.shell plan a'.result, shell := sh' } := hpending
  refine ⟨{ result := applyErrexit a'.shell plan a'.result, failure := a'.failure, shell := sh' }, ?_, ?_, ?_⟩
  · show (Execute.executePendingTraps p.environment exec fuel (applyErrexit a'.shell plan a'.result)
      (Execute.Answer.settled { a' with result := applyErrexit a'.shell plan a'.result }).shell).bind _ = _
    rw [hanswer]
    rfl
  · have hworld' : sh'.world = a.shell.world := by
      rw [hworld, ← hshell]
      rfl
    refine h.of_shell hworld' ?_
    show Kept a.shell.state sh'.state
    rw [hstate, hshell]
    exact (Kept.refl h.state.reachable).setStatus _
  · intro hnone hclean
    have hsame : a' = a := by
      rw [← ha']
      unfold Execute.Answer.failStatus
      rw [hnone]
      dsimp only
      rw [hnone]
      rfl
    rw [hsame]
    exact ⟨hnone, hclean.applyErrexit _ _⟩

/-- A run that leaves the table `t`, and stops nothing if it goes well. -/
def Runs (x : Option (Execute.Answer (World X) Node)) (sh : Execute.Shell (World X) Node) (t : Table)
    (good : Prop) : Prop :=
  ∃ a, x = some a ∧ Leaves sh a t ∧ (good → a.failure = none ∧ Clean a.result)

theorem planStep_runs {fuel : ℕ} {plan : Plan Node} {t : Table} {good : Prop}
    (hexec : ¬ hasBit sh.state.info.options Opt.noexec = true)
    (h : Runs (planBody p.environment exec fuel sh plan) sh t good) :
    Runs (planStep p.environment exec fuel sh plan) sh t good := by
  obtain ⟨a, hbody, hleaves, hgood⟩ := h
  obtain ⟨a', hend, hleaves', hclean⟩ := @planEnd_leaves σ X p exec sh a t hleaves fuel plan
  refine ⟨a', ?_, hleaves', fun hyp => hclean (hgood hyp).1 (hgood hyp).2⟩
  unfold planStep
  rw [show Query.on p.environment.stackExhausted sh = (false, sh) from rfl]
  dsimp only
  rw [if_neg (by simp), if_neg (show ¬ sh.noexec = true from hexec), hbody]
  exact hend

/-- With `noexec` nothing is run. -/
theorem planStep_noexec {fuel : ℕ} {plan : Plan Node} (hs : sh.state.Reachable)
    (hexec : hasBit sh.state.info.options Opt.noexec = true) :
    Runs (planStep p.environment exec fuel sh plan) sh sh.world.traps False := by
  refine ⟨{ result := { status := sh.state.info.lastStatus }, shell := sh }, ?_, ⟨rfl, rfl, .refl hs⟩, False.elim⟩
  unfold planStep
  rw [show Query.on p.environment.stackExhausted sh = (false, sh) from rfl]
  dsimp only
  rw [if_neg (by simp), if_pos (show sh.noexec = true from hexec)]

/-- A list of one command that is not started in the background. -/
theorem listItems_runs {fuel : ℕ} {plan : Plan Node} {t : Table} {good : Prop}
    (h : Runs (exec sh plan) sh t good) :
    Runs (planBody p.environment exec fuel sh (.list [(false, plan)])) sh t good := by
  obtain ⟨a, hran, hleaves, hgood⟩ := h
  refine ⟨a, ?_, hleaves, hgood⟩
  show listItems p.environment exec fuel [(false, plan)] { shell := sh } = some a
  rw [listItems, if_neg (by simp)]
  show (exec sh plan).bind _ = _
  rw [hran]
  show (if a.failure.isSome || halted a.shell a.result then some a else _) = _
  split
  · rfl
  · rfl

/-! ### A line -/

/-- What a line makes of the table. -/
def lineStep (host : Host σ) (t : Table) (number : ℕ) : Option Bytes → Table
  | some operand => (host.trapsBuiltin t (host.lineWords number operand)).table
  | none => t

/-- `trap` is run and succeeds. -/
def Succeeds (host : Host σ) (t : Table) (number : ℕ) : Option Bytes → Prop
  | some operand => (host.trapsBuiltin t (host.lineWords number operand)).status = 0
  | none => False

variable {number : ℕ} {action : Bytes} {hnumber : number ∈ p.host.listed} {h : NulFree action}

/-- What a node leaves if a line is all it runs. -/
theorem planStep_line {fuel : ℕ} {plan : Plan Node} (hs : sh.state.Reachable) {read : Option Bytes}
    (hhands : Hands p sh.state.info.options action read)
    (h : ¬ hasBit sh.state.info.options Opt.noexec = true →
      Runs (planBody p.environment exec fuel sh plan) sh
        (lineStep p.host sh.world.traps number read) (Succeeds p.host sh.world.traps number read)) :
    Runs (planStep p.environment exec fuel sh plan) sh
      (lineStep p.host sh.world.traps number read) (Succeeds p.host sh.world.traps number read) := by
  by_cases hexec : hasBit sh.state.info.options Opt.noexec = true
  · cases read with
    | some operand => exact absurd hexec hhands.1
    | none => exact planStep_noexec hs hexec
  · exact planStep_runs hexec (h hexec)

/-- The simple command of a line. -/
theorem runtimeSimple_line (hmade : MadeOf words (lineWord :: lineRest hnumber h)) (hstack : 2 ≤ p.stack)
    (hs : sh.state.Reachable) (hexec : ¬ hasBit sh.state.info.options Opt.noexec = true)
    {read : Option Bytes} (hhands : Hands p sh.state.info.options action read) (fuel : ℕ) :
    Runs (planBody p.environment exec (fuel + 1) sh (.simple (.simple [] words))) sh
      (lineStep p.host sh.world.traps number read) (Succeeds p.host sh.world.traps number read) := by
  cases read with
  | none =>
    obtain ⟨a, hsimple, hleaves⟩ := @runtimeSimple_none σ X p exec sh words number action
      hnumber h hmade hstack hs hexec hhands (fuel + 1)
    exact ⟨a, hsimple, hleaves, False.elim⟩
  | some operand =>
    obtain ⟨a, hsimple, hfailure, hresult, hleaves⟩ :=
      @runtimeSimple_some σ X p exec sh words number action hnumber h hmade hstack hs operand hhands fuel
    refine ⟨a, hsimple, hleaves, fun hstatus => ⟨hfailure, ?_⟩⟩
    rw [hresult]
    exact ⟨rfl, congrArg Nat.cast hstatus, rfl, rfl, rfl⟩

/-- **A line runs `trap` on the operand it is handed.** -/
theorem executeContextAst_line {tree : Ast} (htree : OneCommand tree (lineWord :: lineRest hnumber h))
    (hstack : 2 ≤ p.stack) (hs : sh.state.Reachable) {read : Option Bytes}
    (hhands : Hands p sh.state.info.options action read) (fuel : ℕ) :
    Runs (executeContextAst p.environment (executePlan p.environment (fuel + 3)) sh (planOf tree)) sh
      (lineStep p.host sh.world.traps number read) (Succeeds p.host sh.world.traps number read) := by
  obtain ⟨_, _, _, _, _, ⟨start, stop, words, rfl, hmade⟩, rfl⟩ := htree
  have hsimple : Runs (executePlan p.environment (fuel + 2) sh (.simple (.simple [] words))) sh
      (lineStep p.host sh.world.traps number read) (Succeeds p.host sh.world.traps number read) :=
    planStep_line hs hhands fun hexec => runtimeSimple_line hmade hstack hs hexec hhands fuel
  have hplan : Runs (executePlan p.environment (fuel + 3) sh (.list [(false, .simple (.simple [] words))])) sh
      (lineStep p.host sh.world.traps number read) (Succeeds p.host sh.world.traps number read) :=
    planStep_line hs hhands fun _ => listItems_runs hsimple
  obtain ⟨a, hran, hleaves, hgood⟩ := hplan
  refine ⟨a.failStatus.settled, ?_, ?_, ?_⟩
  · show (executePlan p.environment (fuel + 3) sh (.list [(false, .simple (.simple [] words))])).bind _ = _
    rw [hran]
    rfl
  · have hshell : a.failStatus.shell = a.shell := by
      unfold Execute.Answer.failStatus
      split <;> rfl
    refine hleaves.of_shell ?_ ?_
    · show a.failStatus.shell.world = a.shell.world
      rw [hshell]
    · show Kept a.shell.state (a.failStatus.shell.setStatus _).state
      rw [hshell]
      exact (Kept.refl hleaves.state.reachable).setStatus _
  · intro hsucceeds
    obtain ⟨hfailure, hclean⟩ := hgood hsucceeds
    have hsame : a.failStatus = a := by
      unfold Execute.Answer.failStatus
      rw [hfailure]
    rw [hsame]
    exact ⟨hfailure, hclean⟩

end

/-! ### The loop -/

/-- No alias is called `trap`. -/
def Unaliased (s : State (Function Node)) : Prop :=
  ∀ aliases, s.aliases = some aliases → Alias.get aliases (ascii "trap") = none

theorem Unaliased.kept {s s' : State (Function Node)} (h : Unaliased s) (hkept : Kept s s') : Unaliased s' :=
  fun aliases haliases => h aliases (hkept.aliases.symm.trans haliases)

/-- `trap` begins a command. -/
theorem begins_trap {s : State (Function Node)} (h : Unaliased s) {t : Token} (hmade : lineWord.Made t) :
    Begins (aliasTable s) t := by
  refine begins_bare hmade.word (by decide) (by decide) (by decide) ?_
  intro table htable
  obtain ⟨aliases, haliases, rfl⟩ := Option.map_eq_some_iff.mp htable
  unfold Run.aliasesGet
  split
  · exact h aliases haliases
  · rfl

section

variable {sh : Execute.Shell (World X) Node} {handle : ℕ}

/-- The parser reads a line. -/
theorem parserNext_line (hd : p.expand.lexical.QuoteSafe) {number : ℕ} (hnumber : number ∈ p.host.listed)
    {action : Bytes} (h : NulFree action) {rest : Bytes} (halias : Unaliased sh.state)
    (hready : (sh.world.inputs handle).Ready (p.host.line number action ++ rest))
    (hrounds : (sh.world.inputs handle).parser.input.incoming.length < p.rounds) (hmore : 4 < p.rounds) :
    ∃ tree sh', Query.on (p.environment.parserNext handle) sh = (.tree (planOf tree), sh') ∧
      OneCommand tree (lineWord :: lineRest hnumber h) ∧ sh'.state = sh.state ∧
      sh'.world.traps = sh.world.traps ∧ (sh'.world.inputs handle).Ready rest ∧
      (sh'.world.inputs handle).parser.input.incoming.length ≤
        (sh.world.inputs handle).parser.input.incoming.length := by
  have hset := hready.setAliases (aliasTable sh.state)
  rw [line_eq hnumber h, append_assoc] at hset
  obtain ⟨tree, session, hnext, hone, hready', -, hincoming⟩ := @next_line p.expand.lexical p.expand.current p.rounds hd
    _ _ _ _ hset (fun t hmade => begins_trap halias hmade) hrounds hmore p.parserStack
  have hinput : (Function.update sh.world.inputs handle session) handle = session := Function.update_self ..
  refine ⟨tree, { sh with world := { sh.world with inputs := Function.update sh.world.inputs handle session } },
    ?_, hone, rfl, rfl, ?_, ?_⟩
  · show (let r := parserNext p handle sh.world sh.state; (r.1, { sh with world := r.2 })) = _
    unfold parserNext
    dsimp only
    rw [hnext]
  · show (Function.update sh.world.inputs handle session handle).Ready rest
    rwa [hinput]
  · show (Function.update sh.world.inputs handle session handle).parser.input.incoming.length ≤ _
    rw [hinput]
    exact hincoming

/-- Behind the lines the parser finds the end. -/
theorem parserNext_eof (hready : (sh.world.inputs handle).Ready []) (hmore : 4 < p.rounds) :
    ∃ sh', Query.on (p.environment.parserNext handle) sh = (.eof, sh') ∧ sh'.state = sh.state ∧
      sh'.world.traps = sh.world.traps := by
  obtain ⟨session, hnext⟩ := @next_eof p.expand.lexical p.expand.current p.rounds _
    (hready.setAliases (aliasTable sh.state)) (by omega) p.parserStack
  refine ⟨{ sh with world := { sh.world with inputs := Function.update sh.world.inputs handle session } },
    ?_, rfl, rfl⟩
  show (let r := parserNext p handle sh.world sh.state; (r.1, { sh with world := r.2 })) = _
  unfold parserNext
  dsimp only
  rw [hnext]

/-- **Evaluating lines is folding over them**, up to the first one that stops the shell. -/
theorem evaluateLoop_lines (hd : p.expand.lexical.QuoteSafe) (hstack : 2 ≤ p.stack) (hmore : 4 < p.rounds)
    {action : ℕ → Bytes} {read : ℕ → Option Bytes} {lines : List ℕ} (hlisted : ∀ n ∈ lines, n ∈ p.host.listed)
    (hnul : ∀ n, NulFree (action n)) (hhands : ∀ n ∈ lines, Hands p sh.state.info.options (action n) (read n))
    (hs : sh.state.Reachable) (halias : Unaliased sh.state)
    (hready : (sh.world.inputs handle).Ready (lines.flatMap fun n => p.host.line n (action n)))
    (hrounds : (sh.world.inputs handle).parser.input.incoming.length < p.rounds) {rest : ℕ}
    (hrest : lines.length < rest) (fuel : ℕ) (result : Execution) :
    ∃ a done, evaluateLoop p.environment (executePlan p.environment (fuel + 3)) handle false rest sh result =
        some a ∧ done <+: lines ∧
      a.shell.world.traps = done.foldl (fun t n => lineStep p.host t n (read n)) sh.world.traps ∧
      ∀ good : Table → Prop, good sh.world.traps → (∀ t, good t → ∀ n ∈ lines,
        Succeeds p.host t n (read n) ∧ good (lineStep p.host t n (read n))) → done = lines := by
  induction lines generalizing sh rest result with
  | nil =>
    obtain ⟨rest, rfl⟩ : ∃ k, rest = k + 1 := ⟨rest - 1, by omega⟩
    obtain ⟨sh', hnext, -, htraps⟩ := parserNext_eof (p := p) hready hmore
    refine ⟨{ result, shell := sh' }, [], ?_, prefix_rfl, htraps, fun _ _ _ => rfl⟩
    rw [evaluateLoop, hnext]
  | cons number lines ih =>
    obtain ⟨rest, rfl⟩ : ∃ k, rest = k + 1 := ⟨rest - 1, by omega⟩
    have hnumber := hlisted number mem_cons_self
    rw [flatMap_cons] at hready
    obtain ⟨tree, sh₁, hnext, hone, hstate₁, htraps₁, hready₁, hincoming₁⟩ :=
      parserNext_line hd hnumber (hnul number) halias hready hrounds hmore
    have hhands₁ : Hands p sh₁.state.info.options (action number) (read number) := by
      rw [hstate₁]
      exact hhands number mem_cons_self
    obtain ⟨a, hran, hleaves, hgood⟩ := @executeContextAst_line σ X p sh₁ number (action number) hnumber
      (hnul number) tree hone hstack (by rwa [hstate₁]) (read number) hhands₁ fuel
    rw [htraps₁] at hleaves hgood
    have hkept := hleaves.state
    rw [hstate₁] at hkept
    have hloop : evaluateLoop p.environment (executePlan p.environment (fuel + 3)) handle false (rest + 1) sh
        result = if stopped a.shell a.result then some a
          else evaluateLoop p.environment (executePlan p.environment (fuel + 3)) handle false rest a.shell
            a.result := by
      rw [evaluateLoop, hnext]
      dsimp only
      rw [hran]
      rfl
    by_cases hstopped : stopped a.shell a.result = true
    · -- the shell stops behind this line
      refine ⟨a, [number], by rw [hloop, if_pos hstopped], ?_, hleaves.traps, ?_⟩
      · exact (prefix_cons_inj number).mpr nil_prefix
      · intro good hgoodStart hgoodStep
        have hclean := (hgood (hgoodStep _ hgoodStart number mem_cons_self).1).2
        rw [hclean.not_stopped] at hstopped
        cases hstopped
    · -- the next line is read
      obtain ⟨a', done, hrun, hprefix, htraps, hall⟩ := ih
        (fun n hn => hlisted n (mem_cons_of_mem _ hn))
        (fun n hn => by rw [hkept.options]; exact hhands n (mem_cons_of_mem _ hn))
        hkept.reachable (halias.kept hkept) (by rwa [hleaves.inputs])
        (by rw [hleaves.inputs]; exact Nat.lt_of_le_of_lt hincoming₁ hrounds)
        (Nat.lt_of_succ_lt_succ hrest) a.result
      refine ⟨a', number :: done, by rw [hloop, if_neg hstopped, hrun], ?_, ?_, ?_⟩
      · exact (prefix_cons_inj number).mpr hprefix
      · rw [htraps, hleaves.traps, foldl_cons]
      · intro good hgoodStart hgoodStep
        have hafter := (hgoodStep _ hgoodStart number mem_cons_self).2
        rw [hall good (by rwa [hleaves.traps]) fun t ht n hn => hgoodStep t ht n (mem_cons_of_mem _ hn)]

/-! ### `eval` -/

/-- A shell whose aliases exist. -/
theorem kept_withAliases {s : State (Function Node)} (h : Unaliased s) : Unaliased s.withAliases := by
  intro aliases haliases
  cases Option.some.inj haliases
  cases hold : s.aliases with
  | none => rfl
  | some old => exact h old hold

/-- **`eval` of lines folds over them.** -/
theorem evalBuiltin_lines (hd : p.expand.lexical.QuoteSafe) (hstack : 2 ≤ p.stack)
    {action : ℕ → Bytes} {read : ℕ → Option Bytes} {lines : List ℕ} (hlisted : ∀ n ∈ lines, n ∈ p.host.listed)
    (hnul : ∀ n, NulFree (action n)) (hhands : ∀ n ∈ lines, Hands p sh.state.info.options (action n) (read n))
    (hs : sh.state.Reachable) (halias : Unaliased sh.state)
    (hrounds : (lines.flatMap fun n => p.host.line n (action n)).length + 4 < p.rounds) {rest : ℕ}
    (hrest : lines.length < rest) (fuel : ℕ) (result : Execution) :
    ∃ a done, evalBuiltin p.environment (executePlan p.environment (fuel + 3)) rest sh
        [lines.flatMap fun n => p.host.line n (action n)] result = some a ∧ done <+: lines ∧
      a.shell.world.traps = done.foldl (fun t n => lineStep p.host t n (read n)) sh.world.traps ∧
      ∀ good : Table → Prop, good sh.world.traps → (∀ t, good t → ∀ n ∈ lines,
        Succeeds p.host t n (read n) ∧ good (lineStep p.host t n (read n))) → done = lines := by
  let text := lines.flatMap fun n => p.host.line n (action n)
  let input : Input := { name := ascii "eval", incoming := text.map .byte }
  let handle := sh.world.opened
  let opened : Execute.Shell (World X) Node :=
    { sh with
      world := { sh.world with
        opened := sh.world.opened + 1, inputs := Function.update sh.world.inputs handle (Session.create input) }
      state := sh.state.withAliases }
  have hinput : opened.world.inputs handle = Session.create input := Function.update_self ..
  have hready : (opened.world.inputs handle).Ready text := by
    rw [hinput]
    exact Session.ready_create input rfl rfl rfl (lined_lines lines action) none
  have hlength : (opened.world.inputs handle).parser.input.incoming.length = text.length := by
    rw [hinput]
    exact length_map _
  obtain ⟨a, done, hrun, hprefix, htraps, hall⟩ := @evaluateLoop_lines σ X p opened handle hd hstack (by omega)
    action read lines hlisted hnul hhands (.withAliases hs) (kept_withAliases halias) hready
    (by rw [hlength]; exact Nat.lt_of_le_of_lt (Nat.le_add_right _ 4) hrounds) rest hrest fuel
    { result with status := 0 }
  refine ⟨{ a with result := { a.result with category := result.category } }, done, ?_, hprefix, htraps, hall⟩
  have hjoined : intercalate (ascii " ") [text] = text := by simp [intercalate]
  unfold evalBuiltin
  dsimp only
  rw [hjoined]
  show evaluateInput p.environment _ rest handle false _ result = _
  unfold evaluateInput
  show (evaluateLoop p.environment _ handle false rest opened { result with status := 0 }).bind _ = _
  rw [hrun]
  rfl

end

end Traps
end CShell
