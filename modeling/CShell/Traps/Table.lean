import CShell.Jobs.Model
import CShell.Quoting.Printers
import CShell.Traps.Model

/-!
# The trap table

`trap` without the signals: the table of actions, the conditions a text names, and the
listing.  The signals ignored on entry to a non-interactive shell cannot be trapped; the
others are installed and reset through `sigaction`, which refuses some numbers.

What is stored has passed the argument rules of `trap` already, so it is never read as
something else when a listing is read back.

Memory suffices and the writes of a listing succeed.

## Main definitions

* `Host` — `sigaction` and `sigaddset`, as far as they refuse numbers.
* `Table` — `struct csh_traps`.
* `Host.condition`, `Table.listOne`, `Host.install`, `Host.trapsBuiltin` — `trap`.
* `Table.afterFork` — the table of a child.
* `Reachable host ignored t` — the tables of a shell.
* `Host.listed`, `Host.line` — what `trap -p` writes.

## Main results

* `Reachable.sound` — **an action of a reachable table is neither `-` nor a number.**
* `condition_name` — the name of a listed condition is read as that condition.
* `output_listing` — `trap -p` writes one line for each listed condition.
* `trapsBuiltin_line` — **the words of a line give its condition the action it had.**

## References

`src/traps.c`, `src/jobs.c` (`csh_jobs_signal_number`, `csh_jobs_signal_name`).
-/

namespace CShell
namespace Traps

open List
open Jobs (Signal)

/-! ### The host -/

/-- The kernel as `trap` meets it.  A number that `sigaction` can be asked about is a
signal, and its disposition can be changed unless it is `KILL` or `STOP`. -/
structure Host (σ : Type) where
  jobs : Jobs.Host σ
  /-- Whether `sigaction(number, NULL, …)` succeeds. -/
  queries : ℕ → Bool
  /-- Whether `sigaction` succeeds in changing a disposition. -/
  changes : ℕ → Bool
  number_pos : ∀ signal, 0 < jobs.number signal
  validSignal_of_queries : ∀ n, queries n = true → jobs.validSignal n = true
  changes_of_queries : ∀ n, queries n = true → n ≠ jobs.number .kill → n ≠ jobs.number .stop →
    changes n = true

/-! ### The table -/

/-- `struct trap_entry`. -/
structure Entry where
  action : Option Bytes := none
  installed : Bool := false
  ignored : Bool := false
  deriving DecidableEq, Repr, Inhabited

/-- `struct csh_traps`, as far as `trap` reads it. -/
structure Table where
  exitAction : Option Bytes := none
  entries : ℕ → Entry := fun _ => {}
  entryIgnored : ℕ → Bool

/-- `csh_traps_create`, with the signals that are ignored on entry. -/
def Table.create (ignored : ℕ → Bool) : Table := { entryIgnored := ignored }

/-- The action of a condition. -/
def Table.action (t : Table) (number : ℕ) : Option Bytes :=
  if number = 0 then t.exitAction else (t.entries number).action

/-- The entry of a signal is replaced. -/
def Table.setEntry (t : Table) (number : ℕ) (entry : Entry) : Table :=
  { t with entries := Function.update t.entries number entry }

theorem action_setEntry (t : Table) {number : ℕ} (h : number ≠ 0) (entry : Entry) (m : ℕ) :
    (t.setEntry number entry).action m = if m = number then entry.action else t.action m := by
  unfold Table.action Table.setEntry
  by_cases hm : m = number
  · simp [hm, h]
  · simp [hm]

/-! ### Conditions -/

/-- `isspace`. -/
def space (byte : UInt8) : Bool := (ascii " \t\n\x0b\x0c\x0d").contains byte

/-- `strtol` where it reads the whole text and the value fits. -/
def strtol (text : Bytes) : Option ℤ := Jobs.number (text.dropWhile space)

variable {σ : Type} (host : Host σ)

namespace Host

/-- `condition`. -/
def condition (text : Bytes) : Option ℕ :=
  if text = ascii "EXIT" ∨ text = ascii "0" then some 0
  else
    let text := if (ascii "SIG").isPrefixOf text then text.drop 3 else text
    match strtol text with
    | some value =>
      if 0 < value ∧ value < trapLimit ∧ host.jobs.validSignal value then some value.toNat else none
    | none =>
      match Jobs.signalNumber host.jobs text with
      | some number => if 0 < number ∧ number < trapLimit then some number else none
      | none => none

/-- `%d` of a signal number. -/
def numeric (number : ℕ) : Bytes := (Nat.toDigits 10 number).map byteOf

/-- The name `list_one` writes. -/
def name (number : ℕ) : Bytes :=
  if number = 0 then ascii "EXIT"
  else
    match Jobs.signalNames.find? fun entry => host.jobs.number entry.2 == number with
    | some entry => entry.1
    | none => numeric number

end Host

/-! ### Listing -/

/-- The action `list_one` writes, an ignored signal having the empty one. -/
def Table.shown (t : Table) (number : ℕ) : Option Bytes :=
  if (t.action number).isNone && decide (0 < number) && t.entryIgnored number then some []
  else t.action number

/-- The line of an action. -/
def Host.line (number : ℕ) (action : Bytes) : Bytes :=
  ascii "trap -- " ++ Quoting.quoteAction action ++ [byteOf ' '] ++ host.name number ++ [byteOf '\n']

/-- `list_one`. -/
def Table.listOne (t : Table) (number : ℕ) (defaults : Bool) : Bytes :=
  match t.shown number with
  | some action => host.line number action
  | none => if defaults then host.line number (ascii "-") else []

/-- The numbers `trap` lists. -/
def Host.listed : List ℕ :=
  (List.range trapLimit).filter fun i =>
    !(i == host.jobs.number .kill || i == host.jobs.number .stop || (decide (0 < i) && !host.queries i))

/-! ### Installing -/

/-- `install`: the diagnostic of a failure. -/
def Host.install (t : Table) (number : ℕ) (action : Option Bytes) : Option Bytes × Table :=
  if number = 0 then (none, { t with exitAction := action })
  else if t.entryIgnored number then (none, t)
  else
    match action with
    | none =>
      if (t.entries number).installed && !host.changes number then (some (ascii "cannot reset signal"), t)
      else (none, t.setEntry number {})
    | some text =>
      if !host.changes number then (some (ascii "cannot install signal"), t)
      else (none, t.setEntry number { action, installed := true, ignored := text.isEmpty })

/-- What a call of `trap` leaves. -/
structure Answer where
  status : ℕ := 0
  output : Bytes := []
  diagnostics : List (Bytes × Option Bytes) := []
  table : Table

/-- The operands of `trap -p`. -/
def Host.listOperands (t : Table) : List Bytes → Answer
  | [] => { table := t }
  | operand :: rest =>
    let r := listOperands t rest
    match host.condition operand with
    | none =>
      { r with status := 1, diagnostics := (ascii "invalid condition", some operand) :: r.diagnostics }
    | some number => { r with output := t.listOne host number true ++ r.output }

/-- The conditions behind an action. -/
def Host.installAll (action : Option Bytes) : Table → List Bytes → Answer
  | t, [] => { table := t }
  | t, operand :: rest =>
    match host.condition operand with
    | none =>
      let r := installAll action t rest
      { r with status := 1, diagnostics := (ascii "invalid condition", some operand) :: r.diagnostics }
    | some number =>
      let (failure, t) := host.install t number action
      let r := installAll action t rest
      match failure with
      | none => r
      | some message => { r with status := 1, diagnostics := (message, none) :: r.diagnostics }

/-- An unsigned decimal. -/
def unsigned (text : Bytes) : Bool := !text.isEmpty && text.all digit

/-- The action that the operands give, `none` for a reset, and the conditions behind it:
a decimal in the place of an action is a condition to reset. -/
def actionOf (first : Bytes) (rest : List Bytes) : Option Bytes × List Bytes :=
  if unsigned first then (none, first :: rest)
  else (if first = ascii "-" then none else some first, rest)

/-- The listing of all conditions. -/
def Host.listing (t : Table) (defaults : Bool) : Bytes :=
  host.listed.flatMap fun i => t.listOne host i defaults

/-- `csh_traps_builtin` behind its options. -/
def Host.installOperands (t : Table) : List Bytes → Answer
  | [] => { output := host.listing t false, table := t }
  | first :: rest =>
    let (action, conditions) := actionOf first rest
    if conditions.isEmpty then
      { status := 1, diagnostics := [(ascii "missing condition", none)], table := t }
    else host.installAll action t conditions

/-- `csh_traps_builtin`. -/
def Host.trapsBuiltin (t : Table) (argv : List Bytes) : Answer :=
  match argv.tail with
  | [] => host.installOperands t []
  | first :: rest =>
    if first = ascii "-p" then
      let operands := if rest.head? = some (ascii "--") then rest.tail else rest
      if operands.isEmpty then { output := host.listing t true, table := t }
      else host.listOperands t operands
    else if first = ascii "--" then host.installOperands t rest
    else if first.head? = some (byteOf '-') ∧ first ≠ ascii "-" then
      { status := 1, diagnostics := [(ascii "invalid option", some first)], table := t }
    else host.installOperands t (first :: rest)

/-! ### Tables of a shell -/

/-- `csh_traps_after_fork`. -/
def Table.afterFork (t : Table) (preserveListing : Bool) : Table :=
  { t with
    exitAction := if preserveListing then t.exitAction else none
    entries := fun i =>
      let entry := t.entries i
      if !entry.installed then entry
      else
        { entry with
          action := if !preserveListing && !entry.ignored then none else entry.action
          installed := entry.ignored } }

/-- The tables of a shell with these signals ignored on entry. -/
inductive Reachable (ignored : ℕ → Bool) : Table → Prop
  | create : Reachable ignored (.create ignored)
  | trap {t : Table} (h : Reachable ignored t) (argv : List Bytes) (hnul : ∀ arg ∈ argv, NulFree arg) :
      Reachable ignored (host.trapsBuiltin t argv).table
  | fork {t : Table} (h : Reachable ignored t) (preserveListing : Bool) :
      Reachable ignored (t.afterFork preserveListing)

/-! ### What is stored -/

/-- An action that `trap` reads as an action. -/
structure Storable (action : Bytes) : Prop where
  dash : action ≠ ascii "-"
  unsigned : unsigned action = false
  nulFree : NulFree action

/-- Only such actions are stored, and none for a signal ignored on entry. -/
structure Table.Sound (ignored : ℕ → Bool) (t : Table) : Prop where
  entryIgnored : t.entryIgnored = ignored
  storable : ∀ number action, t.action number = some action → Storable action
  empty : ∀ number, number ≠ 0 → ignored number = true → t.action number = none

variable {host} {ignored : ℕ → Bool} {t : Table}

theorem Table.Sound.create : (Table.create ignored).Sound ignored := by
  have hnone : ∀ number, (Table.create ignored).action number = none := by
    intro number
    unfold Table.action Table.create
    split <;> rfl
  refine ⟨rfl, ?_, fun number _ _ => hnone number⟩
  intro number action h
  rw [hnone] at h
  cases h

/-- An installation changes one condition or none. -/
theorem action_install (t : Table) (number : ℕ) (action : Option Bytes) (m : ℕ) :
    (host.install t number action).2.action m = t.action m ∨
      m = number ∧ (number = 0 ∨ t.entryIgnored number = false) ∧
        (host.install t number action).2.action m = action := by
  unfold Host.install
  by_cases hzero : number = 0
  · rw [if_pos hzero]
    by_cases hm : m = 0
    · exact .inr ⟨hm.trans hzero.symm, .inl hzero, by simp [Table.action, hm]⟩
    · exact .inl (by simp [Table.action, hm])
  · rw [if_neg hzero]
    by_cases hignored : t.entryIgnored number = true
    · rw [if_pos hignored]
      exact .inl rfl
    · rw [if_neg hignored]
      have hset : ∀ entry : Entry, (t.setEntry number entry).action m = t.action m ∨
          m = number ∧ (t.setEntry number entry).action m = entry.action := by
        intro entry
        rw [action_setEntry t hzero]
        by_cases hm : m = number
        · exact .inr ⟨hm, if_pos hm⟩
        · exact .inl (if_neg hm)
      have hfalse := Bool.eq_false_iff.mpr hignored
      cases action with
      | none =>
        dsimp only
        split
        · exact .inl rfl
        · exact (hset {}).imp_right fun h => ⟨h.1, .inr hfalse, h.2⟩
      | some text =>
        dsimp only
        split
        · exact .inl rfl
        · exact (hset _).imp_right fun h => ⟨h.1, .inr hfalse, h.2⟩

theorem entryIgnored_install (t : Table) (number : ℕ) (action : Option Bytes) :
    (host.install t number action).2.entryIgnored = t.entryIgnored := by
  unfold Host.install
  split
  · rfl
  · split
    · rfl
    · cases action <;> dsimp only <;> split <;> rfl

theorem Table.Sound.install (h : t.Sound ignored) (number : ℕ) {action : Option Bytes}
    (hstorable : ∀ text, action = some text → Storable text) :
    (host.install t number action).2.Sound ignored := by
  refine ⟨(entryIgnored_install t number action).trans h.entryIgnored, ?_, ?_⟩
  · intro m text htext
    rcases @action_install _ host t number action m with hold | ⟨-, -, hnew⟩
    · exact h.storable m text (hold.symm.trans htext)
    · exact hstorable text (hnew.symm.trans htext)
  · intro m hm hignored
    rcases @action_install _ host t number action m with hold | ⟨rfl, hzero | hfalse, -⟩
    · exact hold.trans (h.empty m hm hignored)
    · exact absurd hzero hm
    · rw [h.entryIgnored, hignored] at hfalse
      cases hfalse

theorem Table.Sound.installAll {action : Option Bytes}
    (hstorable : ∀ text, action = some text → Storable text) (operands : List Bytes)
    (h : t.Sound ignored) : (host.installAll action t operands).table.Sound ignored := by
  induction operands generalizing t with
  | nil => exact h
  | cons operand rest ih =>
    unfold Host.installAll
    cases host.condition operand with
    | none => exact ih h
    | some number =>
      have hrest := ih (@Table.Sound.install _ host _ _ h number _ hstorable)
      dsimp only
      generalize host.install t number action = r at hrest ⊢
      obtain ⟨failure, t'⟩ := r
      cases failure with
      | none => exact hrest
      | some message => exact hrest

theorem table_listOperands (t : Table) (operands : List Bytes) :
    (host.listOperands t operands).table = t := by
  induction operands with
  | nil => rfl
  | cons operand rest ih =>
    unfold Host.listOperands
    cases host.condition operand <;> exact ih

theorem storable_actionOf {first : Bytes} (hnul : NulFree first) (rest : List Bytes) {text : Bytes}
    (h : (actionOf first rest).1 = some text) : Storable text := by
  unfold actionOf at h
  by_cases hunsigned : unsigned first = true
  · rw [if_pos hunsigned] at h
    cases h
  · rw [if_neg hunsigned] at h
    by_cases hdash : first = ascii "-"
    · rw [if_pos hdash] at h
      cases h
    · rw [if_neg hdash] at h
      cases h
      exact ⟨hdash, Bool.eq_false_iff.mpr hunsigned, hnul⟩

theorem Table.Sound.installOperands (h : t.Sound ignored) {args : List Bytes}
    (hnul : ∀ arg ∈ args, NulFree arg) : (host.installOperands t args).table.Sound ignored := by
  cases args with
  | nil => exact h
  | cons first rest =>
    have hstorable : ∀ text, (actionOf first rest).1 = some text → Storable text :=
      fun text => storable_actionOf (hnul first mem_cons_self) rest
    unfold Host.installOperands
    dsimp only
    split
    · exact h
    · exact h.installAll hstorable _

theorem Table.Sound.trapsBuiltin (h : t.Sound ignored) {argv : List Bytes}
    (hnul : ∀ arg ∈ argv, NulFree arg) : (host.trapsBuiltin t argv).table.Sound ignored := by
  have htail : ∀ arg ∈ argv.tail, NulFree arg := fun arg harg => hnul arg (mem_of_mem_tail harg)
  unfold Host.trapsBuiltin
  generalize argv.tail = args at htail
  cases args with
  | nil => exact h
  | cons first rest =>
    dsimp only
    split
    · -- the listings change nothing
      generalize (if rest.head? = some (ascii "--") then rest.tail else rest) = operands
      split
      · exact h
      · rw [table_listOperands]
        exact h
    · split
      · exact h.installOperands fun arg harg => htail arg (mem_cons_of_mem first harg)
      · split
        · exact h
        · exact h.installOperands htail

/-- A child has the actions of its parent, or fewer. -/
theorem action_afterFork (t : Table) (preserveListing : Bool) (m : ℕ) :
    (t.afterFork preserveListing).action m = t.action m ∨
      (t.afterFork preserveListing).action m = none := by
  unfold Table.action Table.afterFork
  by_cases hm : m = 0
  · rw [if_pos hm, if_pos hm]
    cases preserveListing
    · exact .inr rfl
    · exact .inl rfl
  · rw [if_neg hm, if_neg hm]
    dsimp only
    split
    · exact .inl rfl
    · dsimp only
      split
      · exact .inr rfl
      · exact .inl rfl

/-- **An action of a reachable table is neither `-` nor a number.** -/
theorem Reachable.sound (h : Reachable host ignored t) : t.Sound ignored := by
  induction h with
  | create => exact .create
  | trap _ argv hnul ih => exact ih.trapsBuiltin hnul
  | fork _ preserveListing ih =>
    refine ⟨ih.entryIgnored, ?_, ?_⟩
    · intro number action haction
      rcases action_afterFork _ preserveListing number with hsame | hnone
      · exact ih.storable number action (hsame.symm.trans haction)
      · rw [hnone] at haction
        cases haction
    · intro number hnumber hignored
      rcases action_afterFork _ preserveListing number with hsame | hnone
      · exact hsame.trans (ih.empty number hnumber hignored)
      · exact hnone

/-! ### Names -/

/-- A name is read as the signal it names: it is no number, it is not `EXIT`, it does not
begin with `SIG`, and no other name differs from it by letter case only. -/
theorem signalNames_read : (Jobs.signalNames.all fun entry =>
    decide (entry.1 ≠ ascii "EXIT") && decide (entry.1 ≠ ascii "0") && !(ascii "SIG").isPrefixOf entry.1 &&
      (strtol entry.1).isNone && (Jobs.number entry.1).isNone && entry.1.all Quoting.ordinary &&
      decide (Jobs.signalNames.find? (fun other => other.1.map Jobs.lower == entry.1.map Jobs.lower) =
        some entry)) = true := by
  decide +kernel

theorem numeric_read : ((List.range' 1 (trapLimit - 1)).all fun n =>
    decide (Host.numeric n ≠ ascii "EXIT") && decide (Host.numeric n ≠ ascii "0") &&
      !(ascii "SIG").isPrefixOf (Host.numeric n) && decide (strtol (Host.numeric n) = some (n : ℤ)) &&
      (Host.numeric n).all Quoting.ordinary && !(Host.numeric n).isEmpty) = true := by
  decide +kernel

/-- What it is to be listed. -/
theorem mem_listed {number : ℕ} (h : number ∈ host.listed) :
    number < trapLimit ∧ number ≠ host.jobs.number .kill ∧ number ≠ host.jobs.number .stop ∧
      (number ≠ 0 → host.queries number = true) := by
  unfold Host.listed at h
  rw [mem_filter, mem_range] at h
  obtain ⟨hlimit, hkept⟩ := h
  rw [Bool.not_eq_true', Bool.or_eq_false_iff, Bool.or_eq_false_iff, beq_eq_false_iff_ne,
    beq_eq_false_iff_ne, Bool.and_eq_false_iff] at hkept
  obtain ⟨⟨hkill, hstop⟩, hqueries⟩ := hkept
  refine ⟨hlimit, hkill, hstop, fun hne => ?_⟩
  have hpos := Nat.pos_of_ne_zero hne
  simpa [hpos] using hqueries

/-- **The name of a listed condition is read as that condition.** -/
theorem condition_name {number : ℕ} (h : number ∈ host.listed) :
    host.condition (host.name number) = some number := by
  obtain ⟨hlimit, -, -, hqueries⟩ := mem_listed h
  by_cases hzero : number = 0
  · rw [Host.name, if_pos hzero, hzero, Host.condition, if_pos (.inl rfl)]
  · have hpos : 0 < number := Nat.pos_of_ne_zero hzero
    have hvalid := host.validSignal_of_queries number (hqueries hzero)
    rw [Host.name, if_neg hzero]
    split
    · next entry hfind =>
      -- one of the names
      have hnumber : host.jobs.number entry.2 = number := by simpa using find?_some hfind
      have hread := all_eq_true.mp signalNames_read entry (mem_of_find?_eq_some hfind)
      simp only [Bool.and_eq_true, decide_eq_true_eq, Bool.not_eq_true', Option.isNone_iff_eq_none] at hread
      obtain ⟨⟨⟨⟨⟨⟨hexit, hnull⟩, hsig⟩, hstrtol⟩, hplain⟩, -⟩, hfound⟩ := hread
      have hsignal : Jobs.signalNumber host.jobs entry.1 = some number := by
        rw [Jobs.signalNumber, hplain]
        dsimp only
        rw [hfound, Option.map_some, hnumber]
      unfold Host.condition
      rw [if_neg (by simp [hexit, hnull]), hsig, if_neg (by simp)]
      dsimp only
      rw [hstrtol]
      dsimp only
      rw [hsignal]
      exact if_pos ⟨hpos, hlimit⟩
    · -- a number
      have hmem : number ∈ range' 1 (trapLimit - 1) := by
        rw [mem_range'_1]
        exact ⟨hpos, by unfold trapLimit at hlimit ⊢; omega⟩
      have hread := all_eq_true.mp numeric_read number hmem
      simp only [Bool.and_eq_true, decide_eq_true_eq, Bool.not_eq_true'] at hread
      obtain ⟨⟨⟨⟨⟨hexit, hnull⟩, hsig⟩, hstrtol⟩, -⟩, -⟩ := hread
      unfold Host.condition
      rw [if_neg (by simp [hexit, hnull]), hsig, if_neg (by simp)]
      dsimp only
      rw [hstrtol]
      exact if_pos ⟨by omega, by omega, hvalid⟩

/-- A name is a word of ordinary bytes. -/
theorem name_ordinary {number : ℕ} (h : number ∈ host.listed) :
    host.name number ≠ [] ∧ ∀ byte ∈ host.name number, Quoting.ordinary byte = true := by
  obtain ⟨hlimit, -, -, -⟩ := mem_listed h
  unfold Host.name
  by_cases hzero : number = 0
  · rw [if_pos hzero]
    exact ⟨by decide, all_eq_true.mp (by decide +kernel)⟩
  · rw [if_neg hzero]
    split
    · next entry hfind =>
      have hread := all_eq_true.mp signalNames_read entry (mem_of_find?_eq_some hfind)
      simp only [Bool.and_eq_true, decide_eq_true_eq, Bool.not_eq_true', Option.isNone_iff_eq_none] at hread
      refine ⟨?_, all_eq_true.mp hread.1.2⟩
      intro hnil
      have hnone := hread.2
      rw [hnil] at hnone
      revert hnone
      rw [show Jobs.signalNames.find? (fun other => other.1.map Jobs.lower == ([] : Bytes).map Jobs.lower) =
        none by decide +kernel]
      exact fun hsome => by cases hsome
    · have hmem : number ∈ range' 1 (trapLimit - 1) := by
        rw [mem_range'_1]
        exact ⟨Nat.pos_of_ne_zero hzero, by unfold trapLimit at hlimit ⊢; omega⟩
      have hread := all_eq_true.mp numeric_read number hmem
      simp only [Bool.and_eq_true, decide_eq_true_eq, Bool.not_eq_true'] at hread
      exact ⟨by simpa using hread.2, all_eq_true.mp hread.1.2⟩

/-! ### The listing and its lines -/

/-- The action on the line of a condition in `trap -p`. -/
def Table.printed (t : Table) (number : ℕ) : Bytes := (t.shown number).getD (ascii "-")

/-- `trap -p` writes one line for each listed condition. -/
theorem output_listing (t : Table) :
    (host.trapsBuiltin t [ascii "trap", ascii "-p"]).output =
      host.listed.flatMap fun number => host.line number (t.printed number) := by
  have hcall : host.trapsBuiltin t [ascii "trap", ascii "-p"] =
      { output := host.listing t true, table := t } := by
    unfold Host.trapsBuiltin
    simp
  rw [hcall]
  show host.listing t true = _
  unfold Host.listing
  congr 1
  funext number
  unfold Table.listOne Table.printed
  cases t.shown number <;> rfl

theorem Table.Sound.printed_cases (h : t.Sound ignored) (number : ℕ) :
    t.printed number = ascii "-" ∧ t.action number = none ∧ (number = 0 ∨ ignored number = false) ∨
      t.printed number = [] ∧ number ≠ 0 ∧ ignored number = true ∧ t.action number = none ∨
      t.action number = some (t.printed number) ∧ Storable (t.printed number) := by
  unfold Table.printed Table.shown
  rw [h.entryIgnored]
  cases haction : t.action number with
  | some action => exact .inr (.inr ⟨by simp, by simpa using h.storable number action haction⟩)
  | none =>
    by_cases hzero : number = 0
    · exact .inl ⟨by simp [hzero], rfl, .inl hzero⟩
    · have hpos : 0 < number := Nat.pos_of_ne_zero hzero
      cases hignored : ignored number with
      | true => exact .inr (.inl ⟨by simp [hpos], hzero, rfl, rfl⟩)
      | false => exact .inl ⟨by simp, rfl, .inr rfl⟩

theorem Table.Sound.nulFree_printed (h : t.Sound ignored) (number : ℕ) :
    NulFree (t.printed number) := by
  rcases h.printed_cases number with ⟨hdash, -⟩ | ⟨hnil, -⟩ | ⟨-, hstorable⟩
  · rw [hdash]
    decide
  · rw [hnil]
    decide
  · exact hstorable.nulFree

/-- An installation that the host does not refuse. -/
theorem install_succeeds (t : Table) {number : ℕ} (action : Option Bytes)
    (hchanges : number ≠ 0 → t.entryIgnored number = false → host.changes number = true) :
    (host.install t number action).1 = none ∧
      (∀ m, m ≠ number → (host.install t number action).2.action m = t.action m) ∧
      ((number = 0 ∨ t.entryIgnored number = false) →
        (host.install t number action).2.action number = action) := by
  unfold Host.install
  by_cases hzero : number = 0
  · rw [if_pos hzero]
    refine ⟨rfl, fun m hm => ?_, fun _ => by simp [Table.action, hzero]⟩
    rw [hzero] at hm
    simp [Table.action, hm]
  · rw [if_neg hzero]
    cases hignored : t.entryIgnored number with
    | true =>
      rw [if_pos rfl]
      exact ⟨rfl, fun _ _ => rfl, fun h => absurd h (by simp [hzero])⟩
    | false =>
      rw [if_neg (by simp)]
      have hchange := hchanges hzero hignored
      cases action with
      | none =>
        dsimp only
        rw [hchange, if_neg (by simp)]
        exact ⟨rfl, fun m hm => by rw [action_setEntry t hzero, if_neg hm],
          fun _ => by rw [action_setEntry t hzero, if_pos rfl]⟩
      | some text =>
        dsimp only
        rw [hchange, if_neg (by simp)]
        exact ⟨rfl, fun m hm => by rw [action_setEntry t hzero, if_neg hm],
          fun _ => by rw [action_setEntry t hzero, if_pos rfl]⟩

/-- The words of a line of the listing. -/
def Host.lineWords (number : ℕ) (action : Bytes) : List Bytes :=
  [ascii "trap", ascii "--", action, host.name number]

/-- **The words of a line give its condition the action it had**, and leave the other
conditions alone. -/
theorem trapsBuiltin_line {first : Table} (hfirst : first.Sound ignored) (ht : t.Sound ignored) {number : ℕ}
    (hnumber : number ∈ host.listed) :
    (host.trapsBuiltin t (host.lineWords number (first.printed number))).status = 0 ∧
      (host.trapsBuiltin t (host.lineWords number (first.printed number))).table.action number =
        first.action number ∧
      ∀ m, m ≠ number →
        (host.trapsBuiltin t (host.lineWords number (first.printed number))).table.action m = t.action m := by
  obtain ⟨-, hkill, hstop, hqueries⟩ := mem_listed hnumber
  have hchanges : number ≠ 0 → t.entryIgnored number = false → host.changes number = true :=
    fun hne _ => host.changes_of_queries number (hqueries hne) hkill hstop
  have hunsigned : unsigned (first.printed number) = false := by
    rcases hfirst.printed_cases number with ⟨hdash, -⟩ | ⟨hnil, -⟩ | ⟨-, hstorable⟩
    · rw [hdash]
      decide
    · rw [hnil]
      rfl
    · exact hstorable.unsigned
  have hcall : host.trapsBuiltin t (host.lineWords number (first.printed number)) =
      host.installAll (if first.printed number = ascii "-" then none else some (first.printed number)) t
        [host.name number] := by
    unfold Host.trapsBuiltin Host.lineWords
    rw [tail_cons]
    dsimp only
    rw [if_neg (by decide), if_pos rfl, Host.installOperands, actionOf, hunsigned, if_neg (by simp)]
    rfl
  rw [hcall, Host.installAll, condition_name hnumber]
  dsimp only
  obtain ⟨hok, hothers, hone⟩ := install_succeeds t
    (if first.printed number = ascii "-" then none else some (first.printed number)) hchanges
  rw [hok]
  refine ⟨rfl, ?_, hothers⟩
  show (host.install t number _).2.action number = first.action number
  rcases hfirst.printed_cases number with
    ⟨hdash, hnone, hfree⟩ | ⟨-, hne, hignored, hnone⟩ | ⟨hsome, hstorable⟩
  · rw [hone (by rwa [ht.entryIgnored]), if_pos hdash, hnone]
  · -- neither shell can trap it
    have hsound : (host.install t number (if first.printed number = ascii "-" then none
        else some (first.printed number))).2.action number = t.action number := by
      rcases @action_install _ host t number (if first.printed number = ascii "-" then none
        else some (first.printed number)) number with hsame | ⟨-, hzero | hfalse, -⟩
      · exact hsame
      · exact absurd hzero hne
      · rw [ht.entryIgnored, hignored] at hfalse
        cases hfalse
    rw [hsound, ht.empty number hne hignored, hnone]
  · by_cases hfree : number = 0 ∨ t.entryIgnored number = false
    · rw [hone hfree, if_neg hstorable.dash, hsome]
    · -- an ignored signal has no action
      rw [not_or, Bool.not_eq_false, ht.entryIgnored] at hfree
      rw [hfirst.empty number hfree.1 hfree.2] at hsome
      cases hsome

end Traps
end CShell
