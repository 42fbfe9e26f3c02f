import CShell.Lib.Program
import CShell.Builtin.Normalize
import CShell.State.Scope

/-!
# The working directory

`cd` and `pwd` over a tree of directories.  A system call may fail at any time; if it does
not, it does what the tree says.  A name is looked up through links, so that a tree is no
more than a partial function of a directory and a name.  A descriptor of a directory is the
directory.

Memory is not exhausted, and the loop of `cwd` that enlarges its buffer is one call of
`getcwd`.

## Main definitions

* `Tree.resolve` — what a path names.
* `Host`, `World` — the file system with its faults, and the process with its shell state.
* `directoryHandle`, `directoryStat`, `current` — directories by their paths.
* `normalizing` — `normalize`, each of whose questions is a system call.
* `directory` — the builtin.

## References

`src/builtin.c` (`directory` and above).
-/

namespace CShell
namespace Directory

open Components Program

/-! ### The file system -/

/-- The error numbers the source tells apart. -/
inductive Errno
  | nameTooLong
  | other
  deriving DecidableEq, Repr

/-- Directories, and what a name in a directory leads to. -/
structure Tree (D : Type) where
  root : D
  lookup : D → Bytes → Option D

variable {D F : Type}

/-- One component of a path. -/
def Tree.enter (tree : Tree D) (d : D) (name : Bytes) : Option D :=
  if name = dot then some d else tree.lookup d name

/-- The directory a path names, from a working directory. -/
def Tree.resolve (tree : Tree D) (cwd : D) (path : Bytes) : Option D :=
  if path.isEmpty then none
  else (components sep path).foldlM tree.enter (if path.head? = some sep then tree.root else cwd)

/-- An absolute path of a directory. -/
structure Tree.Names (tree : Tree D) (path : Bytes) (d : D) : Prop where
  absolute : path.head? = some sep
  resolve : ∀ cwd, tree.resolve cwd path = some d

/-- The file system: what it says when a call does not fail, and which calls fail, by the
number of calls before and the path they are about. -/
structure Host (D : Type) where
  tree : Tree D
  getcwd : D → Option Bytes
  /-- `getcwd` answers with an absolute path of the working directory. -/
  getcwd_names : ∀ {d path}, getcwd d = some path → tree.Names path d
  fault : ℕ → Bytes → Option Errno
  /-- Whether `fchdir` gets back to the directory the builtin began in. -/
  returns : Bool
  /-- `pathconf(".", _PC_PATH_MAX)`. -/
  pathMax : ℤ

/-- The process: its working directory, the shell state, how many calls were made, and what
was written to the two outputs. -/
structure World (F D : Type) where
  state : State F
  cwd : D
  calls : ℕ := 0
  output : Bytes := []
  diagnostics : List Bytes := []

/-- Why the builtin reports 1.  `unprinted` is the failure to write the new directory. -/
inductive Failure
  | failed
  | unprinted
  deriving DecidableEq, Repr

/-- What reads and changes the process. -/
abbrev Action (F D α : Type) := Program (World F D) Failure α

/-- `problem`. -/
def problem (name message : Bytes) : Bytes :=
  ascii "cshell: " ++ name ++ ascii ": " ++ message ++ ascii "\n"

/-- A diagnostic. -/
def report (name message : Bytes) : Action F D Unit :=
  modify fun w => { w with diagnostics := w.diagnostics ++ [problem name message] }

/-- A diagnostic and status 1. -/
def refuse {α : Type} (name message : Bytes) : Action F D α := do
  report name message
  stop .failed

/-- `done` with status 1. -/
def giveUp {α : Type} : Action F D α :=
  refuse (ascii "cd") (ascii "cannot change directory or update directory state")

section Calls

variable {α : Type} [DecidableEq D] (host : Host D)

/-- A system call about a path, which does not change anything. -/
def call (path : Bytes) (answer : D → Option α) : Action F D (Except Errno α) :=
  update fun w =>
    (match host.fault w.calls path with
      | some errno => .error errno
      | none => match answer w.cwd with
        | some a => .ok a
        | none => .error .other,
      { w with calls := w.calls + 1 })

/-- `chdir` and, with the directory of a descriptor as its target, `fchdir`. -/
def moveTo (path : Bytes) (target : D → Option D) : Action F D (Except Errno Unit) :=
  update fun w =>
    match host.fault w.calls path with
    | some errno => (.error errno, { w with calls := w.calls + 1 })
    | none => match target w.cwd with
      | some d => (.ok (), { w with calls := w.calls + 1, cwd := d })
      | none => (.error .other, { w with calls := w.calls + 1 })

/-- The walk of `directory_handle`, one `openat` for each component. -/
def walk : D → List Bytes → Action F D (Except Errno D)
  | d, [] => pure (.ok d)
  | d, part :: parts => do
    match ← call host part fun _ => host.tree.resolve d part with
    | .error errno => pure (.error errno)
    | .ok d => walk d parts

/-- `directory_handle`. -/
def directoryHandle (path : Bytes) : Action F D (Except Errno D) := do
  match ← call host path fun cwd => host.tree.resolve cwd path with
  | .error .nameTooLong =>
    let first := if path.head? = some sep then rootOf path else dot
    match ← call host first fun cwd => host.tree.resolve cwd first with
    | .error errno => pure (.error errno)
    | .ok d => walk host d (components sep path)
  | answer => pure answer

/-- `directory_stat`, and the directory it finds. -/
def directoryStat (path : Bytes) : Action F D (Except Errno D) := do
  match ← call host path fun cwd => host.tree.resolve cwd path with
  | .error .nameTooLong =>
    match ← directoryHandle host path with
    | .error errno => pure (.error errno)
    | .ok d => call host path fun _ => some d
  | answer => pure answer

/-- `logical_valid`. -/
def logicalValid : Option Bytes → Action F D Bool
  | none => pure false
  | some path =>
    if path.head? ≠ some sep ∨ ∃ part ∈ components sep path, part = dot ∨ part = dotDot then
      pure false
    else do
      match ← directoryStat host path with
      | .error _ => pure false
      | .ok a =>
        match ← call host dot fun cwd => host.tree.resolve cwd dot with
        | .error _ => pure false
        | .ok b => pure (decide (a = b))

/-- `cwd`. -/
def cwd : Action F D (Option Bytes) := do
  match ← call host [] host.getcwd with
  | .error _ => pure none
  | .ok path => pure (some path)

/-- The value of a variable. -/
def valueOf (w : World F D) (name : String) : Option Bytes := (w.state.getVariable (ascii name)).2.value

/-- `current`. -/
def current (physical : Bool) : Action F D (Option Bytes) := do
  let value ← gets fun w => valueOf w "PWD"
  if physical then cwd host
  else do
    if ← logicalValid host value then pure value else cwd host

end Calls

/-! ### The builtin -/

/-- The options of `cd` and `pwd`. -/
structure Flags where
  physical : Bool := false
  requireCwd : Bool := false
  deriving DecidableEq, Repr

/-- The letters of one argument. -/
def letters (isCd : Bool) : Bytes → Flags → Option Flags
  | [], flags => some flags
  | o :: rest, flags =>
    if o = byteOf 'L' then letters isCd rest { flags with physical := false }
    else if o = byteOf 'P' then letters isCd rest { flags with physical := true }
    else if o = byteOf 'e' ∧ isCd then letters isCd rest { flags with requireCwd := true }
    else none

/-- The options in front of the operands; `none` is an invalid one. -/
def options (isCd : Bool) : List Bytes → Flags → Option (Flags × List Bytes)
  | [], flags => some (flags, [])
  | argument :: rest, flags =>
    if argument.head? = some (byteOf '-') ∧ argument.length ≠ 1 then
      if argument = ascii "--" then some (flags, rest)
      else
        match letters isCd argument.tail flags with
        | none => none
        | some flags => options isCd rest flags
    else some (flags, argument :: rest)

/-- `join`. -/
def join (a b : Bytes) : Bytes := a ++ [sep] ++ b

/-- The operand is looked up in `CDPATH`. -/
def searched (operand : Bytes) (print : Bool) : Bool :=
  operand.head? ≠ some sep && !(ascii "./").isPrefixOf operand && operand ≠ dot &&
    !(ascii "../").isPrefixOf operand && operand ≠ dotDot && !print

section Builtin

variable [DecidableEq D] (host : Host D)

/-- The search of `CDPATH`: the path found, and whether it is printed. -/
def search (operand : Bytes) : List Bytes → Action F D (Option (Bytes × Bool))
  | [] => pure none
  | part :: parts => do
    let target := join (if part.isEmpty then dot else part) operand
    match ← call host target fun cwd => host.tree.resolve cwd target with
    | .ok _ => pure (some (target, !part.isEmpty))
    | .error _ => search operand parts

/-- The operand, from `HOME` or `OLDPWD` when it is left out or `-`, and whether the new
directory is printed. -/
def operandOf (operands : List Bytes) : Action F D (Bytes × Bool) := do
  match operands with
  | [] => implied "HOME" false
  | operand :: _ =>
    if operand = ascii "-" then implied "OLDPWD" true
    else if operand.isEmpty then refuse (ascii "cd") (ascii "empty directory operand")
    else pure (operand, false)
where
  implied (name : String) (print : Bool) : Action F D (Bytes × Bool) := do
    match ← gets fun w => valueOf w name with
    | some (byte :: rest) => pure (byte :: rest, print)
    | _ => refuse (ascii "cd") (ascii "HOME or OLDPWD is unset or empty")

/-- The target before it is made logical. -/
def targetOf (operand : Bytes) (print : Bool) : Action F D (Bytes × Bool) := do
  if searched operand print then
    match ← gets fun w => valueOf w "CDPATH" with
    | none => pure (operand, print)
    | some path =>
      match ← search host operand (path.splitOn (byteOf ':')) with
      | some found => pure found
      | none => pure (operand, print)
  else pure (operand, print)

/-- Whether what a turn of `normalize` drops is a directory; only `..` drops anything. -/
def stands (c : Cursor) : Action F D Bool := do
  if componentLength c.s c.read = 2 ∧ byteAt c.s c.read = byteOf '.' ∧
      byteAt c.s (c.read + 1) = byteOf '.' then
    match ← directoryStat host (textOf (c.s.set c.used 0)) with
    | .ok _ => pure true
    | .error _ => pure false
  else pure true

/-- The loop of `normalize`.  The outer `none` is for turns that run out. -/
def normalizing : ℕ → Cursor → Action F D (Option (Option Bytes))
  | 0, _ => pure none
  | turns + 1, c =>
    if byteAt c.s c.read = 0 then pure (some (some (textOf (c.s.set c.used 0))))
    else do
      let answer ← stands host c
      match turn (fun _ => answer) c with
      | none => pure (some none)
      | some c => normalizing turns c

/-- The logical target: under the former directory, and normalised. -/
def logicalTarget (old : Option Bytes) (target : Bytes) : Action F D Bytes := do
  let target := match old with
    | some old => if target.head? ≠ some sep then join old target else target
    | none => target
  if target.head? = some sep then
    match ← normalizing host (target.length + 1) (start (target ++ [0])) with
    | some (some target) => pure target
    | _ => giveUp
  else pure target

/-- The operand of `chdir`: a target too long for it goes without the former directory. -/
def shortened (physical : Bool) (old : Option Bytes) (target : Bytes) : Bytes :=
  match old with
  | none => target
  | some old =>
    if !physical ∧ 0 < host.pathMax ∧ host.pathMax ≤ target.length ∧ old <+: target ∧
        (target.drop old.length).head? ∈ [none, some sep] then
      let change := (target.drop old.length).dropWhile (· == sep)
      if change.isEmpty then dot else change
    else target

/-- The change of the working directory. -/
def enter (change : Bytes) : Action F D Unit := do
  match ← moveTo host change fun cwd => host.tree.resolve cwd change with
  | .ok () => pure ()
  | .error .other => giveUp
  | .error .nameTooLong =>
    match ← directoryHandle host change with
    | .error _ => giveUp
    | .ok d =>
      match ← moveTo host [] fun _ => some d with
      | .ok () => pure ()
      | .error _ => giveUp

/-- `csh_state_set_variable`, and whether it succeeded. -/
def setVariable (name : String) (value : Bytes) : Action F D Bool :=
  update fun w => ((w.state.setVariable (ascii name) value).1 == .ok,
    { w with state := (w.state.setVariable (ascii name) value).2 })

/-- `csh_state_unset_variable`, and whether it succeeded. -/
def unsetVariable (name : String) : Action F D Bool :=
  update fun w => ((w.state.unsetVariable (ascii name)).1 == .ok,
    { w with state := (w.state.unsetVariable (ascii name)).2 })

/-- The update of the two variables, and whether it succeeded. -/
def publish (flags : Flags) (print : Bool) (old newpwd : Option Bytes) : Action F D Bool := do
  match newpwd with
  | none =>
    -- without `-e` the physical directory need not be known
    if flags.physical && !flags.requireCwd && !print then
      if ← unsetVariable "PWD" then setVariable "OLDPWD" (old.getD []) else pure false
    else pure false
  | some newpwd =>
    if ← setVariable "OLDPWD" (old.getD []) then setVariable "PWD" newpwd else pure false

/-- Back to the directory and the state kept aside. -/
def goBack (fd : D) (checkpoint : State F) : Action F D Unit := do
  if host.returns then modify fun w => { w with cwd := fd }
  else report (ascii "cd") (ascii "cannot restore directory after state failure")
  modify fun w => { w with state := w.state.restore checkpoint }

/-- `csh_write_text` to the standard output, and whether it succeeded. -/
def writeText (text : Bytes) : Action F D Bool := do
  match ← call host text fun _ => some () with
  | .error _ => pure false
  | .ok () =>
    modify fun w => { w with output := w.output ++ text }
    pure true

/-- A line on the standard output. -/
def printLine (line : Bytes) : Action F D Bool := do
  if ← writeText host line then writeText host (ascii "\n") else pure false

/-- `cd` behind the change: the variables follow, and the new directory is printed, or
everything comes back. -/
def conclude (flags : Flags) (print : Bool) (old newpwd : Option Bytes) (fd : D)
    (checkpoint : State F) : Action F D Unit := do
  if ← publish flags print old newpwd then
    if print then
      if ← printLine host (newpwd.getD []) then pure ()
      else
        report (ascii "cd") (ascii "cannot change directory or update directory state")
        stop .unprinted
    else pure ()
  else
    goBack host fd checkpoint
    giveUp

/-- `cd` behind its options. -/
def changeDirectory (flags : Flags) (operands : List Bytes) : Action F D Unit := do
  let (operand, print) ← operandOf operands
  let old ← current host false
  let (target, print) ← targetOf host operand print
  let target ← (if flags.physical then pure target else logicalTarget host old target)
  let .ok fd ← directoryHandle host dot | giveUp
  let some checkpoint ← gets fun w => w.state.save | giveUp
  enter host (shortened host flags.physical old target)
  let newpwd ← (if !flags.physical && target.head? = some sep then pure (some target) else cwd host)
  conclude host flags print old newpwd fd checkpoint

/-- `pwd` behind its options. -/
def printDirectory (flags : Flags) : Action F D Unit := do
  match ← current host flags.physical with
  | none => refuse (ascii "pwd") (ascii "cannot determine current directory")
  | some path =>
    if ← printLine host path then pure ()
    else do
      report (ascii "pwd") (ascii "cannot write output")
      stop .unprinted

/-- `directory` under the name of one of the two builtins. -/
def directory (isCd : Bool) (arguments : List Bytes) : Action F D Unit := do
  let name := if isCd then ascii "cd" else ascii "pwd"
  match options isCd arguments {} with
  | none => refuse name (ascii "invalid option")
  | some (flags, operands) =>
    if (if isCd then 1 else 0) < operands.length then refuse name (ascii "too many operands")
    else if isCd then changeDirectory host flags operands
    else printDirectory host flags

end Builtin

end Directory
end CShell
