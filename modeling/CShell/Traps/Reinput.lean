import CShell.Jobs.Reports
import CShell.Traps.Evaluate

/-!
# Listings are read back

Another shell evaluates what `trap -p` printed.  Every line names its condition and
quotes its action, so that the words of the line set the condition as it was; but the
action is one word of a simple command, and pathname expansion may find a wildcard in it
that the quotes were to hide.

## Main definitions

* `onFiles` — the shell on another file system.
* `Restores` — the listing of a table, evaluated in a second shell, restores its actions.

## Main results

* `action_foldl_lineStep` — lines set the conditions they name and no others.
* `restores_iff` — **a listing is read back on every file system and over every table if and
  only if commands are run and pathname expansion is off or every action is hidden.**
* `not_restores_bareLead` — in GBK the name of a file is stored.

## References

`src/traps.c`.
-/

namespace CShell
namespace Traps

open Quoting Parse Execute Expand List

variable {σ X : Type} {host : Host σ} {p : Setting X σ} {ignored : ℕ → Bool} {first t : Table}

/-! ### Lines -/

/-- A line sets the condition it names, unless its action is not handed over. -/
theorem lineStep_spec (hfirst : first.Sound ignored) (ht : t.Sound ignored) {number : ℕ}
    (hnumber : number ∈ host.listed) {read : Option Bytes}
    (hread : read = none ∨ read = some (first.printed number)) :
    (lineStep host t number read).Sound ignored ∧ (read ≠ none → Succeeds host t number read) ∧
      (read ≠ none → (lineStep host t number read).action number = first.action number) ∧
      ∀ m, (read = none ∨ m ≠ number) → (lineStep host t number read).action m = t.action m := by
  rcases hread with rfl | rfl
  · exact ⟨ht, fun h => absurd rfl h, fun h => absurd rfl h, fun _ _ => rfl⟩
  · obtain ⟨hstatus, hset, hothers⟩ := trapsBuiltin_line hfirst ht hnumber
    refine ⟨ht.trapsBuiltin ?_, fun _ => hstatus, fun _ => hset, ?_⟩
    · have hname : NulFree (host.name number) := by
        intro hmem
        exact absurd ((name_ordinary hnumber).2 0 hmem) (by decide)
      intro arg harg
      unfold Host.lineWords at harg
      simp only [mem_cons, not_mem_nil, or_false] at harg
      rcases harg with rfl | rfl | rfl | rfl
      · decide
      · decide
      · exact hfirst.nulFree_printed number
      · exact hname
    · intro m hm
      exact hothers m (hm.resolve_left (by simp))

/-- **Lines set the conditions they name and no others.** -/
theorem action_foldl_lineStep (hfirst : first.Sound ignored) (ht : t.Sound ignored) {read : ℕ → Option Bytes}
    {lines : List ℕ} (hlisted : ∀ n ∈ lines, n ∈ host.listed)
    (hread : ∀ n, read n = none ∨ read n = some (first.printed n)) (m : ℕ) :
    (lines.foldl (fun t n => lineStep host t n (read n)) t).action m =
      if m ∈ lines ∧ read m ≠ none then first.action m else t.action m := by
  induction lines generalizing t with
  | nil => simp
  | cons number lines ih =>
    obtain ⟨hsound, -, hset, hothers⟩ :=
      lineStep_spec hfirst ht (hlisted number mem_cons_self) (hread number)
    rw [foldl_cons, ih hsound fun n hn => hlisted n (mem_cons_of_mem _ hn)]
    by_cases hlater : m ∈ lines ∧ read m ≠ none
    · rw [if_pos hlater, if_pos ⟨mem_cons_of_mem _ hlater.1, hlater.2⟩]
    · rw [if_neg hlater]
      by_cases hhere : m = number ∧ read number ≠ none
      · rw [hhere.1, hset hhere.2, if_pos ⟨mem_cons_self, hhere.2⟩]
      · rw [hothers m (by rw [not_and_or, not_not] at hhere; exact hhere.symm), if_neg]
        rintro ⟨hmem, hsome⟩
        rcases mem_cons.mp hmem with rfl | hmem
        · exact hhere ⟨rfl, hsome⟩
        · exact hlater ⟨hmem, hsome⟩

/-! ### The listing in another shell -/

/-- The shell on another file system. -/
def onFiles (p : Setting X σ) (fs : FileSystem) : Setting X σ :=
  { p with expand := { p.expand with fs } }

/-- The listing of `first` is evaluated in a shell whose table is `second`, and every listed
condition has its action. -/
def Restores (p : Setting X σ) (first second : Table) (sh : Execute.Shell (World X) Node) (rest fuel : ℕ)
    (result : Execution) : Prop :=
  ∃ a, evalBuiltin p.environment (executePlan p.environment fuel) rest
      { sh with world := { sh.world with traps := second } }
      [(p.host.trapsBuiltin first [ascii "trap", ascii "-p"]).output] result = some a ∧
    ∀ n ∈ p.host.listed, a.shell.world.traps.action n = first.action n

section

variable {sh : Execute.Shell (World X) Node} {second : Table} {rest fuel : ℕ}

/-- What a listing leaves, as far as its actions are handed over. -/
theorem evalBuiltin_listing (hd : p.expand.lexical.QuoteSafe) (hstack : 2 ≤ p.stack) {seen : Table}
    (hfirst : first.Sound ignored) (hseen : seen.Sound ignored) (hsecond : second.Sound ignored)
    (read : ℕ → Option Bytes) (hread : ∀ n, read n = none ∨ read n = some (seen.printed n))
    (hhands : ∀ n ∈ p.host.listed, Hands p sh.state.info.options (first.printed n) (read n))
    (hs : sh.state.Reachable) (halias : Unaliased sh.state)
    (hrounds : (p.host.trapsBuiltin first [ascii "trap", ascii "-p"]).output.length + 4 < p.rounds)
    (hrest : trapLimit < rest) (hfuel : 3 ≤ fuel) (result : Execution) :
    ∃ a, evalBuiltin p.environment (executePlan p.environment fuel) rest
        { sh with world := { sh.world with traps := second } }
        [(p.host.trapsBuiltin first [ascii "trap", ascii "-p"]).output] result = some a ∧
      (∀ n, read n = none → a.shell.world.traps.action n = second.action n) ∧
      ((∀ n ∈ p.host.listed, read n ≠ none) →
        ∀ n ∈ p.host.listed, a.shell.world.traps.action n = seen.action n) := by
  obtain ⟨fuel, rfl⟩ : ∃ k, fuel = k + 3 := ⟨fuel - 3, by omega⟩
  have hlines : p.host.listed.length < rest := by
    refine Nat.lt_of_le_of_lt ?_ hrest
    unfold Host.listed
    exact (length_filter_le _ _).trans (Nat.le_of_eq length_range)
  rw [output_listing] at hrounds ⊢
  obtain ⟨a, done, hrun, hprefix, htraps, hall⟩ := @evalBuiltin_lines σ X p
    { sh with world := { sh.world with traps := second } } hd hstack first.printed read p.host.listed
    (fun n hn => hn) hfirst.nulFree_printed hhands hs halias hrounds rest hlines fuel result
  have haction : ∀ m, a.shell.world.traps.action m =
      if m ∈ done ∧ read m ≠ none then seen.action m else second.action m := by
    intro m
    rw [htraps]
    exact action_foldl_lineStep hseen hsecond (fun n hn => hprefix.subset hn) hread m
  refine ⟨a, hrun, fun n hnone => ?_, fun hsome n hn => ?_⟩
  · rw [haction, if_neg (by simp [hnone])]
  · have hdone : done = p.host.listed := hall (fun t => t.Sound ignored) hsecond fun t ht n hn =>
      ⟨(lineStep_spec hseen ht hn (hread n)).2.1 (hsome n hn), (lineStep_spec hseen ht hn (hread n)).1⟩
    rw [haction, if_pos ⟨hdone ▸ hn, hsome n hn⟩]

/-! ### What is handed over -/

/-- A hidden action is handed over as it is. -/
theorem hands_printed {options : UInt32} (hexec : ¬ hasBit options Opt.noexec = true) (hstack : 2 ≤ p.stack)
    {action : Bytes} (hread : hasBit options Opt.noglob = true ∨ Hidden p.expand.current action) :
    Hands p options action (some action) := by
  have hmeaning : meaning (partsFrom [] action) = action := meaning_partsFrom [] action
  refine ⟨hexec, ?_⟩
  intro s word hs hoptions hword
  have hfields := @prepareFields_read _ p.expand _ _ _ _ _ hword hstack hs (p.execute word)
    (by rw [hoptions, hmeaning]; exact hread)
  rwa [hmeaning, nil_append] at hfields

/-- On a broken file system an action that is not hidden is not. -/
theorem hands_broken {options : UInt32} (hglob : ¬ hasBit options Opt.noglob = true) (hstack : 2 ≤ p.stack)
    {action : Bytes} (hactive : ¬ Hidden p.expand.current action) : Hands (onFiles p broken) options action none := by
  have hmeaning : meaning (partsFrom [] action) = action := meaning_partsFrom [] action
  refine .inr ?_
  intro s word hs hoptions hword
  refine @prepareFields_broken _ (onFiles p broken).expand _ _ _ _ _ hword hstack hs _ (by rwa [hoptions]) ?_ rfl
  rw [hmeaning]
  exact Bool.not_eq_false _ ▸ hactive

/-- The action of a reset is hidden. -/
theorem hidden_dash (d : Decoder) : Hidden d (ascii "-") := by
  have hdash : ascii "-" = [byteOf '-'] := by decide
  refine hidden_of_ascii ?_
  intro byte hbyte
  rw [hdash, mem_singleton] at hbyte
  rw [hbyte]
  decide

/-- A condition without an action, or with the empty one of an ignored signal, is hidden. -/
theorem action_eq_of_not_hidden (hfirst : first.Sound ignored) {d : Decoder} {number : ℕ}
    (hactive : ¬ Hidden d (first.printed number)) : first.action number = some (first.printed number) := by
  rcases hfirst.printed_cases number with ⟨hdash, -⟩ | ⟨hnil, -⟩ | ⟨hsome, -⟩
  · rw [hdash] at hactive
    exact absurd (hidden_dash d) hactive
  · rw [hnil] at hactive
    exact absurd (hidden_of_ascii (by simp)) hactive
  · exact hsome

/-- `EXIT` is listed. -/
theorem zero_mem_listed : 0 ∈ host.listed := by
  have hkill := host.number_pos .kill
  have hstop := host.number_pos .stop
  unfold Host.listed
  rw [mem_filter, mem_range]
  refine ⟨by decide, ?_⟩
  rw [Bool.not_eq_true', Bool.or_eq_false_iff, Bool.or_eq_false_iff, beq_eq_false_iff_ne, beq_eq_false_iff_ne]
  exact ⟨⟨by omega, by omega⟩, by simp⟩

/-- A table differs from another one in `EXIT`. -/
theorem exists_other (host : Host σ) (ignored : ℕ → Bool) (first : Table) :
    ∃ second, Reachable host ignored second ∧ second.action 0 ≠ first.action 0 := by
  by_cases hfirst : first.action 0 = none
  · refine ⟨_, .trap .create [ascii "trap", ascii "x", ascii "EXIT"] (by decide), ?_⟩
    rw [hfirst]
    exact (by decide : some (ascii "x") ≠ none)
  · exact ⟨_, .create, fun h => hfirst h.symm⟩

/-- **A listing is read back on every file system and over every table if and only if
commands are run and either pathname expansion is off or every action is hidden.** -/
theorem restores_iff (p : Setting X σ) (hd : p.expand.lexical.QuoteSafe) (hstack : 2 ≤ p.stack)
    (hfirst : Reachable p.host ignored first) (hs : sh.state.Reachable) (halias : Unaliased sh.state)
    (hrounds : (p.host.trapsBuiltin first [ascii "trap", ascii "-p"]).output.length + 4 < p.rounds)
    (hrest : trapLimit < rest) (hfuel : 3 ≤ fuel) (result : Execution) :
    (∀ fs second, Reachable p.host ignored second →
        Restores (onFiles p fs) first second sh rest fuel result) ↔
      hasBit sh.state.info.options Opt.noexec = false ∧
        (hasBit sh.state.info.options Opt.noglob = true ∨
          ∀ n ∈ p.host.listed, Hidden p.expand.current (first.printed n)) := by
  have hsound := hfirst.sound
  constructor
  · intro hall
    have hexec : ¬ hasBit sh.state.info.options Opt.noexec = true := by
      -- otherwise no line is run
      intro hexec
      obtain ⟨second, hsecond, hother⟩ := exists_other p.host ignored first
      obtain ⟨a, hrun, hsame⟩ := hall p.expand.fs second hsecond
      obtain ⟨a', hrun', hkept, -⟩ := evalBuiltin_listing (p := onFiles p p.expand.fs)
        hd hstack hsound hsound hsecond.sound (fun _ => none) (fun _ => .inl rfl) (fun _ _ => .inl hexec) hs halias hrounds
        hrest hfuel result
      cases hrun.symm.trans hrun'
      exact hother ((hkept 0 rfl).symm.trans (hsame 0 zero_mem_listed))
    refine ⟨Bool.eq_false_iff.mpr hexec, ?_⟩
    by_contra hnot
    rw [not_or] at hnot
    obtain ⟨hglob, hactive⟩ := hnot
    simp only [not_forall] at hactive
    obtain ⟨number, hnumber, hactive⟩ := hactive
    -- the line of this condition fails, so that a new table keeps it as it is
    let read (n : ℕ) : Option Bytes :=
      if Hidden p.expand.current (first.printed n) then some (first.printed n) else none
    have hread : ∀ n, read n = none ∨ read n = some (first.printed n) := by
      intro n
      by_cases hn : Hidden p.expand.current (first.printed n)
      · exact .inr (if_pos hn)
      · exact .inl (if_neg hn)
    have hhands : ∀ n ∈ p.host.listed,
        Hands (onFiles p broken) sh.state.info.options (first.printed n) (read n) := by
      intro n _
      by_cases hn : Hidden p.expand.current (first.printed n)
      · rw [show read n = some (first.printed n) from if_pos hn]
        exact hands_printed (p := onFiles p broken) hexec hstack (.inr hn)
      · rw [show read n = none from if_neg hn]
        exact hands_broken hglob hstack hn
    obtain ⟨a, hrun, hsame⟩ := hall broken _ .create
    obtain ⟨a', hrun', hkept, -⟩ := evalBuiltin_listing (p := onFiles p broken) hd hstack hsound hsound
      .create read hread hhands hs halias hrounds hrest hfuel result
    cases hrun.symm.trans hrun'
    have hnone := (hkept number (if_neg hactive)).symm.trans (hsame number hnumber)
    rw [action_eq_of_not_hidden hsound hactive] at hnone
    unfold Table.action Table.create at hnone
    split at hnone <;> cases hnone
  · rintro ⟨hexec, hread⟩ fs second hsecond
    have hhands : ∀ n ∈ p.host.listed,
        Hands (onFiles p fs) sh.state.info.options (first.printed n) (some (first.printed n)) :=
      fun n hn => hands_printed (p := onFiles p fs) (by simp [hexec]) hstack (hread.imp_right fun h => h n hn)
    obtain ⟨a, hrun, -, hrestored⟩ := evalBuiltin_listing (p := onFiles p fs) hd hstack hsound hsound
      hsecond.sound (fun n => some (first.printed n)) (fun _ => .inr rfl) hhands hs halias hrounds hrest hfuel result
    exact ⟨a, hrun, hrestored fun _ _ => by simp⟩

end

/-! ### A shell to read in -/

/-- The numbers of the signals on Linux. -/
def linuxNumber : Jobs.Signal → ℕ
  | .hup => 1 | .int => 2 | .quit => 3 | .ill => 4 | .trap => 5 | .abrt => 6 | .bus => 7 | .fpe => 8
  | .kill => 9 | .usr1 => 10 | .segv => 11 | .usr2 => 12 | .pipe => 13 | .alrm => 14 | .term => 15
  | .chld => 17 | .cont => 18 | .stop => 19 | .tstp => 20 | .ttin => 21 | .ttou => 22 | .urg => 23
  | .xcpu => 24 | .xfsz => 25 | .vtalrm => 26 | .prof => 27 | .winch => 28 | .poll => 29 | .sys => 31

/-- `trap` on Linux. -/
def Host.linux : Host ℕ where
  jobs := { Jobs.Host.scripted (fun _ => []) false with
    number := linuxNumber, validSignal := fun n => decide (1 ≤ n ∧ n ≤ 64) }
  queries n := decide (1 ≤ n ∧ n ≤ 64)
  changes n := decide (1 ≤ n ∧ n ≤ 64 ∧ n ≠ 9 ∧ n ≠ 19)
  number_pos signal := by cases signal <;> decide
  validSignal_of_queries n h := by
    rw [decide_eq_true_eq] at h
    exact decide_eq_true ⟨by omega, by omega⟩
  changes_of_queries n h hkill hstop := by
    rw [decide_eq_true_eq] at h
    exact decide_eq_true ⟨h.1, h.2, hkill, hstop⟩

/-- A world in which nothing but `trap` does anything. -/
def inert : Env (World Unit) Node :=
  let keep (α : Type) (value : α) : Query (World Unit) (Function Node) α := fun w _ => (value, w)
  let still (α : Type) (value : α) : Prim (World Unit) (Function Node) α :=
    ⟨fun w s => (value, w, s), fun _ _ => rfl⟩
  { stackExhausted := keep _ false
    prepareWord := fun _ _ => still _ (.ok [])
    fnmatch := fun pattern word => pattern == word
    arguments := fun _ => still _ (.ok {})
    validate := fun _ => keep _ (.ok ())
    assignments := fun _ command => still _ (.ok command)
    hasRedirects := fun _ => false
    redirects := fun _ command => still _ (.applied, command)
    restore := fun _ _ => keep _ none
    trace := fun _ => still _ ()
    pathBuiltinCategory := fun _ _ _ => keep _ .regularBuiltin
    isJobsBuiltin := fun _ => false
    jobsBuiltin := fun _ => still _ (0, false)
    launch := fun _ => keep _ (.ok 0)
    launchJob := fun _ => keep _ (.ok (0, false))
    replace := fun _ => keep _ (.ok 0)
    launchChild := fun _ => keep _ (.ok 0)
    builtinRun := fun _ => still _ 0
    utilityRun := fun _ => still _ 0
    trapsBuiltin := fun _ _ => keep _ 0
    aliasBuiltin := fun _ => still _ 0
    hashBuiltin := fun _ => still _ (.ok 0)
    lookupReport := fun _ _ _ _ => keep _ 0
    lookupPath := fun path => keep _ (some path)
    inputFromString := fun _ _ => keep _ (.ok 0)
    inputFromFile := fun _ => keep _ (.ok 0)
    parserNext := fun _ => keep _ .eof
    reap := keep _ none
    prepare := fun _ => keep _ none
    trapsFirstPending := keep _ 0
    trapsTake := keep _ .nothing
    trapsExitAction := keep _ (.ok none)
    fork := fun _ _ => keep _ (.ok 1)
    child := fun _ w => w
    jobsCreate := keep _ true
    stageWait := fun _ => keep _ (.ok fun _ => .exited)
    foreground := fun _ => keep _ (.completed fun _ => .exited)
    join := fun w _ => w }

/-- A shell in a locale, with rounds enough to read the listing of a table. -/
def reader (d : Decoder) (first : Table) : Setting Unit ℕ where
  host := .linux
  expand := ⟨d, d, oneFile, fun _ => none⟩
  rounds := (Host.linux.trapsBuiltin first [ascii "trap", ascii "-p"]).output.length + 5
  parserStack := 64
  stack := 64
  execute _ := fun _ _ _ e => (.deferred, [], e)
  substitutionStatus _ _ := 0
  base := inert

/-- A shell that has done nothing. -/
def newShell : Execute.Shell (World Unit) Node where
  world := { inputs := fun _ => Session.create { name := [], incoming := [] }, traps := .create fun _ => false, rest := () }
  state := State.create [] [] [] 1 .stdin 0 false
  context := { traps := true }

/-- The table behind `trap ACTION EXIT`. -/
def exitTable (action : Bytes) : Table :=
  (Host.linux.trapsBuiltin (.create fun _ => false) [ascii "trap", action, ascii "EXIT"]).table

theorem reachable_exitTable {action : Bytes} (h : NulFree action) :
    Reachable Host.linux (fun _ => false) (exitTable action) := by
  refine .trap .create _ ?_
  intro arg harg
  simp only [mem_cons, not_mem_nil, or_false] at harg
  rcases harg with rfl | rfl | rfl
  · decide
  · exact h
  · decide

/-- An action with a quote and a wildcard in it, and a newline. -/
theorem restores_iff_wildcard :
    let first := exitTable (ascii "echo it's *\necho done")
    Restores (onFiles (reader .posix first) oneFile) first (exitTable (ascii "x")) newShell 129 3 {} := by
  intro first
  have hfirst : Reachable Host.linux (fun _ => false) first := reachable_exitTable (by decide)
  refine (restores_iff (reader .posix first) posix_quoteSafe (by decide) hfirst (.create ..) ?_ ?_ (by decide)
    (Nat.le_refl 3) {}).mpr ⟨by decide, .inr fun n _ => hidden_of_asciiSafe Decoder.posix_asciiSafe _⟩ oneFile _
      (reachable_exitTable (by decide))
  · intro aliases haliases
    cases haliases
  · exact Nat.lt_succ_self _

/-- The action with a stray lead byte is handed over as the name of the file. -/
theorem hands_bareLead (first : Table) :
    Hands (reader gbk first) newShell.state.info.options bareLead (some neighbour) := by
  have hmeaning : meaning (partsFrom [] bareLead) = bareLead := meaning_partsFrom [] bareLead
  refine ⟨by decide, ?_⟩
  intro s word hs hoptions hword
  have hfields : finishFields (reader gbk first).expand .argument (ifsOf s) s.info.options
      [wordSpans [] (partsFrom [] bareLead)] {} = (.ok, { fields := [neighbour], log := [.opendir (ascii ".")] }) := by
    rw [expandFields_wordSpans hword, hoptions, if_neg (by decide), hmeaning]
    exact pathnameExpand_bareLead
  unfold prepareFields
  rw [if_neg (Nat.not_lt_zero _)]
  simp only [if_true, hs.save_eq]
  rw [expandWord_quotedWord hword (show 2 ≤ (reader gbk first).stack from (by decide : 2 ≤ 64)) hs.save_eq rfl]
  simp only [if_true, expandFields, hfields]

/-- **In GBK the name of a file is stored**: the wildcard of the action is found behind its
protecting backslash. -/
theorem not_restores_bareLead :
    let first := exitTable bareLead
    Reachable Host.linux (fun _ => false) first ∧ first.action 0 = some bareLead ∧
      (∃ a, evalBuiltin (reader gbk first).environment (executePlan (reader gbk first).environment 3) 129 newShell
          [(Host.linux.trapsBuiltin first [ascii "trap", ascii "-p"]).output] {} = some a ∧
        a.shell.world.traps.action 0 = some neighbour) ∧
      ¬ Restores (reader gbk first) first (.create fun _ => false) newShell 129 3 {} := by
  intro first
  have hfirst : Reachable Host.linux (fun _ => false) first := reachable_exitTable (by decide)
  -- the table that has the name of the file
  let seen : Table := exitTable neighbour
  have hseen : Reachable Host.linux (fun _ => false) seen := reachable_exitTable (by decide)
  have hexit : first.printed 0 = bareLead := by decide
  have hname : seen.printed 0 = neighbour := by decide
  have hfirstEq : first = { Table.create (fun _ => false) with exitAction := some bareLead } := rfl
  have hseenEq : seen = { Table.create (fun _ => false) with exitAction := some neighbour } := rfl
  have hothers : ∀ n, n ≠ 0 → seen.printed n = first.printed n := by
    intro n hn
    rw [hfirstEq, hseenEq]
    simp [Table.printed, Table.shown, Table.action, Table.create, hn]
  have hhands : ∀ n ∈ Host.linux.listed,
      Hands (reader gbk first) newShell.state.info.options (first.printed n) (some (seen.printed n)) := by
    intro n _
    by_cases hn : n = 0
    · rw [hn, hexit, hname]
      exact hands_bareLead first
    · rw [hothers n hn]
      refine hands_printed (by decide) (by decide) (.inr ?_)
      have hdash : first.printed n = ascii "-" := by
        rw [hfirstEq]
        simp [Table.printed, Table.shown, Table.action, Table.create, hn]
      rw [hdash]
      exact hidden_dash gbk
  obtain ⟨a, hrun, -, hrestored⟩ := @evalBuiltin_listing ℕ Unit (reader gbk first) (fun _ => false) first
    newShell (.create fun _ => false) 129 3 gbk_quoteSafe (by decide) seen hfirst.sound hseen.sound .create
    (fun n => some (seen.printed n)) (fun _ => .inr rfl) hhands (.create ..)
    (fun _ haliases => by cases haliases) (Nat.lt_succ_self _) (by decide) (Nat.le_refl 3) {}
  have hstored : a.shell.world.traps.action 0 = some neighbour :=
    hrestored (fun _ _ => by simp) 0 zero_mem_listed
  refine ⟨hfirst, rfl, ⟨a, hrun, hstored⟩, ?_⟩
  rintro ⟨a', hrun', hsame⟩
  cases hrun.symm.trans hrun'
  exact absurd (hstored.symm.trans (hsame 0 zero_mem_listed)) (by decide)

end Traps
end CShell
