import CShell.State

/-!
# Job control

`jobs.c`: the table of launched jobs, the collection of their children and the
builtins that work on it.  A pointer to a job is its place in the list, since no
function moves a job while it holds a pointer to another one.  The kernel, the
terminal and the descriptors written to are a `Host` that answers each call from a
world of its own; a call that fails with `EINTR` is repeated by the source, so here it
is the last repetition.  Saved terminal modes and signal dispositions stay with the
host, and memory is not exhausted.

A wait that has not ended after a given number of wake-ups is left where it is, so
that the states of a wait that never ends are states of the model too.

## Main definitions

* `WaitStatus`, `Process`, `Job` — what `waitpid` reports, and what is kept of it.
* `Table`, `Manager` — `struct csh_jobs`, with the records freed and the lines written
  so far, and the host's world.
* `Manager.poll`, `Manager.continueJob`, `Manager.foreground`, `Manager.cancel` — the
  places that write process flags.
* `Manager.jobsBuiltin` — `jobs`, `fg`, `bg`, `wait`, `kill` and `set`.
* `Manager.launch` — `context_job`, which registers a job and fills in its processes.
* `Op`, `Manager.perform`, `Manager.run` — the calls on a table, in any order.

## References

`src/jobs.c`, `include/cshell/jobs.h`, `src/execute.c` (`context_job`).
-/

namespace CShell

namespace Jobs

/-! ### Children -/

/-- What `waitpid` reports of a child. -/
inductive WaitStatus
  | exited (code : ℕ)
  | signaled (number : ℕ)
  | stopped (number : ℕ)
  | continued
  deriving DecidableEq, Repr, Inhabited

namespace WaitStatus

/-- `WIFEXITED`. -/
def ifExited : WaitStatus → Bool
  | exited _ => true
  | _ => false

/-- `WEXITSTATUS`. -/
def exitStatus : WaitStatus → ℕ
  | exited code => code
  | _ => 0

/-- `WIFSIGNALED`. -/
def ifSignaled : WaitStatus → Bool
  | signaled _ => true
  | _ => false

/-- `WTERMSIG`. -/
def termSig : WaitStatus → ℕ
  | signaled number => number
  | _ => 0

/-- `WIFSTOPPED`. -/
def ifStopped : WaitStatus → Bool
  | stopped _ => true
  | _ => false

/-- `WSTOPSIG`. -/
def stopSig : WaitStatus → ℕ
  | stopped number => number
  | _ => 0

/-- `WIFCONTINUED`. -/
def ifContinued : WaitStatus → Bool
  | continued => true
  | _ => false

end WaitStatus

/-- What a `waitpid` without `WUNTRACED` and `WCONTINUED` reports: how a child ended. -/
inductive Ended
  | exited (code : ℕ)
  | signaled (number : ℕ)
  deriving DecidableEq, Repr, Inhabited

/-- The status a child ended with. -/
def Ended.status : Ended → WaitStatus
  | exited code => .exited code
  | signaled number => .signaled number

/-- `struct csh_job_process`. -/
structure Process where
  pid : ℤ := 0
  status : WaitStatus := .exited 0
  done : Bool := false
  stopped : Bool := false
  deriving DecidableEq, Repr, Inhabited

/-- A process that was started and has not been collected. -/
def Process.live (p : Process) : Bool := decide (0 < p.pid) && !p.done

/-- `struct csh_job`. -/
structure Job where
  id : ℕ
  pgid : ℤ := 0
  processes : List Process
  text : Bytes
  grouped : Bool
  background : Bool
  changed : Bool := false
  reported : Bool := false
  negated : Bool
  pipefail : Bool
  modesValid : Bool := false
  deriving DecidableEq, Repr, Inhabited

namespace Job

/-- `complete`. -/
def complete (job : Job) : Bool := job.processes.all fun p => !p.live

/-- `stopped`. -/
def stopped (job : Job) : Bool :=
  (job.processes.all fun p => !p.live || p.stopped) && job.processes.any Process.live

/-- `!WIFEXITED(candidate) || WEXITSTATUS(candidate) != 0`. -/
def failing (status : WaitStatus) : Bool := !status.ifExited || status.exitStatus != 0

/-- The process whose status is the job's: the last one, or with `pipefail` the last
one that failed. -/
def selected (job : Job) : Process :=
  let last := job.processes.getLastD {}
  if job.pipefail then (job.processes.reverse.find? fun p => failing p.status).getD last else last

/-- `WIFEXITED(status) ? … : WIFSIGNALED(status) ? … : 1`. -/
def exitCode (status : WaitStatus) : ℤ :=
  if status.ifExited then status.exitStatus
  else if status.ifSignaled then 128 + status.termSig
  else 1

/-- `job_status`. -/
def status (job : Job) : ℤ :=
  let ended := exitCode job.selected.status
  let ended := if job.negated then (if ended = 0 then 1 else 0) else ended
  if job.stopped then
    match job.processes.find? Process.stopped with
    | some p => 128 + p.status.stopSig
    | none => ended
  else ended

/-- The process id shown for a job. -/
def displayedPid (job : Job) : ℤ :=
  if job.grouped then job.pgid else (job.processes.getLastD {}).pid

end Job

/-! ### Lines -/

/-- The signals the source has a name for. -/
inductive Signal
  | hup | int | quit | ill | abrt | fpe | kill | segv | sys | pipe | alrm | term | usr1
  | usr2 | chld | cont | stop | tstp | ttin | ttou | bus | trap | urg | xcpu | xfsz
  | vtalrm | prof | winch | poll
  deriving DecidableEq, Repr, Inhabited

/-- `signal_names`. -/
def signalNames : List (Bytes × Signal) :=
  [(ascii "HUP", .hup), (ascii "INT", .int), (ascii "QUIT", .quit), (ascii "ILL", .ill),
   (ascii "ABRT", .abrt), (ascii "FPE", .fpe), (ascii "KILL", .kill), (ascii "SEGV", .segv),
   (ascii "SYS", .sys), (ascii "PIPE", .pipe), (ascii "ALRM", .alrm), (ascii "TERM", .term),
   (ascii "USR1", .usr1), (ascii "USR2", .usr2), (ascii "CHLD", .chld), (ascii "CONT", .cont),
   (ascii "STOP", .stop), (ascii "TSTP", .tstp), (ascii "TTIN", .ttin), (ascii "TTOU", .ttou),
   (ascii "BUS", .bus), (ascii "TRAP", .trap), (ascii "URG", .urg), (ascii "XCPU", .xcpu),
   (ascii "XFSZ", .xfsz), (ascii "VTALRM", .vtalrm), (ascii "PROF", .prof),
   (ascii "WINCH", .winch), (ascii "POLL", .poll)]

/-- The state shown on the line of a job: `Running`, `Stopped`, `Stopped (SIG…)`,
`Done`, `Done(n)` and `Terminated (…)`. -/
inductive StateText
  | running
  | stopped
  | stoppedBy (number : ℤ)
  | done
  | doneWith (status : ℤ)
  | terminated (number : ℕ)
  deriving DecidableEq, Repr, Inhabited

/-- Whether a state is that of a job all of whose processes ended. -/
def StateText.completion : StateText → Bool
  | done | doneWith _ | terminated _ => true
  | _ => false

/-- The mark of the current and of the previous job. -/
inductive Marker
  | current
  | previous
  | blank
  deriving DecidableEq, Repr, Inhabited

/-- The lines written by `jobs.c`. -/
inductive Line
  | command (text : Bytes)
  | job (id : ℕ) (marker : Marker) (pid : Option ℤ) (state : StateText) (text : Bytes)
  | pid (pid : ℤ)
  | stage (pid : ℤ) (text : Bytes)
  | announced (id : ℕ) (pid : ℤ)
  | signalName (name : Bytes)
  | diagnostic (name : Bytes) (message : Bytes) (operand : Option Bytes)
  deriving DecidableEq, Repr, Inhabited

/-- Whether a line says that job `id` has ended. -/
def Line.completionOf (id : ℕ) : Line → Bool
  | job id' _ _ state _ => id' == id && state.completion
  | _ => false

/-- The descriptors written to. -/
inductive Stream
  | stdout
  | stderr
  deriving DecidableEq, Repr, Inhabited

/-- The formats of `print_job`. -/
inductive Format
  | short
  | long
  | pids
  deriving DecidableEq, Repr, Inhabited

/-! ### The host -/

/-- The calls on the terminal. -/
inductive Terminal
  | getModes
  | setModes
  | setGroup (pgid : ℤ)
  deriving DecidableEq, Repr, Inhabited

/-- The flags signal handlers write: `hung_up`, the first pending trap and
`interrupted`, each a signal number or `0`. -/
structure Attention where
  hungUp : ℕ := 0
  trap : ℕ := 0
  interrupted : ℕ := 0
  deriving DecidableEq, Repr, Inhabited

/-- The kernel, the terminal and the rest of the shell. -/
structure Host (σ : Type) where
  /-- The statuses `waitpid(pid, _, WNOHANG | WUNTRACED | WCONTINUED)` reports one after
  the other, and whether the call after the last of them fails. -/
  collect : σ → ℤ → (List WaitStatus × Bool) × σ
  /-- `waitpid(pid, _, 0)`. -/
  wait : σ → ℤ → Option Ended × σ
  /-- `kill`, with the text of its error. -/
  kill : σ → ℤ → ℕ → Option Bytes × σ
  /-- Whether `getpgid` fails with `ESRCH`. -/
  departed : σ → ℤ → Bool × σ
  write : σ → Stream → Line → Bool × σ
  terminal : σ → Terminal → Bool × σ
  attention : σ → Attention
  clearInterrupt : σ → σ
  suspend : σ → σ
  /-- The numbers of the named signals. -/
  number : Signal → ℕ
  /-- Whether `sigaddset` takes a number. -/
  validSignal : ℤ → Bool
  /-- `csh_builtin_set`: its status and the options it leaves. -/
  set : σ → UInt32 → List Bytes → (ℤ × UInt32) × σ
  /-- The barrier and the signal masks of a launch. -/
  barrier : σ → Bool × σ
  /-- The pipe and the `fork` of a stage. -/
  fork : σ → Option ℤ × σ
  setpgid : σ → ℤ → ℤ → Bool × σ
  /-- `csh_jobs_fork_signals(jobs, 1)`. -/
  release : σ → Bool × σ

/-- The list of jobs with its counters, and what became of them: the records that were
freed and the lines that were written. -/
structure Table where
  jobs : List Job := []
  nextId : ℕ := 1
  retained : ℕ := 0
  retentionLimit : ℕ
  freed : List Job := []
  log : List (Stream × Line) := []
  deriving DecidableEq, Repr, Inhabited

/-- `struct csh_jobs`, with the options of the state and the host's world. -/
structure Manager (σ : Type) extends Table where
  tty : Bool
  interactive : Bool
  modesValid : Bool := false
  options : UInt32
  world : σ

variable {σ : Type}

/-- `csh_jobs_create`: a limit that `sysconf` does not give is `256`. -/
def create (limit : ℤ) (tty interactive : Bool) (options : UInt32) (world : σ) : Manager σ where
  retentionLimit := if 0 < limit then limit.toNat else 256
  tty := tty
  interactive := interactive
  options := options
  world := world

namespace Table

/-- The job at a place of the list. -/
def job (t : Table) (i : ℕ) : Job := t.jobs.getD i default

/-- The job at a place, replaced. -/
def modify (t : Table) (i : ℕ) (f : Job → Job) : Table := { t with jobs := t.jobs.modify i f }

/-- `csh_jobs_remove`. -/
def remove (t : Table) (i : ℕ) : Table :=
  { t with jobs := t.jobs.eraseIdx i, retained := t.retained - 1, freed := t.freed ++ [t.job i] }

/-- `promote_job`. -/
def promote (t : Table) (i : ℕ) : Table := { t with jobs := t.job i :: t.jobs.eraseIdx i }

/-- A line written to a descriptor. -/
def said (t : Table) (stream : Stream) (line : Line) : Table :=
  { t with log := t.log ++ [(stream, line)] }

end Table

namespace Manager

/-- `csh_jobs_monitor`. -/
def monitor (m : Manager σ) : Bool := m.tty && hasBit m.options Opt.monitor

/-- A change of the table alone. -/
def withTable (m : Manager σ) (t : Table) : Manager σ := { m with toTable := t }

/-- The job at a place, replaced. -/
def modify (m : Manager σ) (i : ℕ) (f : Job → Job) : Manager σ := m.withTable (m.toTable.modify i f)

/-- `csh_jobs_remove`. -/
def remove (m : Manager σ) (i : ℕ) : Manager σ := m.withTable (m.toTable.remove i)

/-- `promote_job`. -/
def promote (m : Manager σ) (i : ℕ) : Manager σ := m.withTable (m.toTable.promote i)

end Manager

variable (host : Host σ)

/-- A call on the world of a manager. -/
def Manager.on {α : Type} (m : Manager σ) (call : σ → α × σ) : α × Manager σ :=
  let (answer, world) := call m.world
  (answer, { m with world })

/-- `outputf`. -/
def Manager.output (m : Manager σ) (stream : Stream) (line : Line) : Bool × Manager σ :=
  let (written, m) := m.on fun w => host.write w stream line
  (written, if written then m.withTable (m.toTable.said stream line) else m)

/-- `diagnostic`. -/
def Manager.diagnostic (m : Manager σ) (name message : Bytes) (operand : Option Bytes) : Manager σ :=
  (m.output host .stderr (.diagnostic name message operand)).2

/-! ### Collecting children -/

/-- One status taken from `waitpid`. -/
def Process.take (p : Process) (status : WaitStatus) : Process :=
  if status.ifContinued then { p with stopped := false }
  else { p with status, stopped := status.ifStopped, done := status.ifExited || status.ifSignaled }

/-- The loop over the statuses of one child; the flag says that it ends in an error. -/
def Process.poll (failed : Bool) : List WaitStatus → Process → Process × Bool
  | [], p => (p, failed)
  | status :: statuses, p =>
    if (p.take status).done then (p.take status, false)
    else Process.poll failed statuses (p.take status)

/-- The loop of `csh_jobs_poll` over the processes of a job. -/
def pollProcesses : List Process → σ → (List Process × Bool) × σ
  | [], world => (([], false), world)
  | p :: ps, world =>
    if !p.live then
      let ((ps, failed), world) := pollProcesses ps world
      ((p :: ps, failed), world)
    else
      let ((statuses, error), world) := host.collect world p.pid
      let (p, failed) := p.poll error statuses
      if failed then ((p :: ps, true), world)
      else
        let ((ps, failed), world) := pollProcesses ps world
        ((p :: ps, failed), world)

/-- A job whose processes were looked at to the end: a change is noted. -/
def Job.noting (before after : Job) : Job :=
  if before.complete != after.complete || before.stopped != after.stopped then
    { after with changed := true }
  else after

/-- The loop of `csh_jobs_poll` over the jobs. -/
def pollJobs : List Job → σ → (List Job × Bool) × σ
  | [], world => (([], false), world)
  | job :: jobs, world =>
    let ((processes, failed), world) := pollProcesses host job.processes world
    let after := { job with processes }
    if failed then ((after :: jobs, true), world)
    else
      let ((jobs, failed), world) := pollJobs jobs world
      ((job.noting after :: jobs, failed), world)

/-- `csh_jobs_poll`; the flag says that it succeeded. -/
def Manager.poll (m : Manager σ) : Bool × Manager σ :=
  let ((jobs, failed), world) := pollJobs host m.jobs m.world
  (!failed, { m with jobs, world })

/-- The children of a group that refused a signal: one that left it is waited for. -/
def collectDeparted : List Process → σ → (List Process × Bool) × σ
  | [], world => (([], false), world)
  | p :: ps, world =>
    if !p.live then
      let ((ps, failed), world) := collectDeparted ps world
      ((p :: ps, failed), world)
    else
      let (departed, world) := host.departed world p.pid
      if !departed then
        let ((ps, failed), world) := collectDeparted ps world
        ((p :: ps, failed), world)
      else
        let (observed, world) := host.wait world p.pid
        match observed with
        | none => ((p :: ps, true), world)
        | some ended =>
          let ((ps, failed), world) := collectDeparted ps world
          (({ p with status := ended.status, done := true, stopped := false } :: ps, failed), world)

/-- The end of `continue_job`. -/
def Job.resumed (job : Job) : Job :=
  { job with processes := job.processes.map fun p => { p with stopped := false }
             changed := false }

/-- `continue_job`. -/
def Manager.continueJob (m : Manager σ) (i : ℕ) : Bool × Manager σ :=
  let (refused, m) := m.on fun w => host.kill w (-(m.job i).pgid) (host.number .cont)
  if refused.isNone then (true, m.modify i Job.resumed)
  else
    let (polled, m) := m.poll host
    if !polled then (false, m)
    else
      let ((processes, failed), m) := m.on (collectDeparted host (m.job i).processes)
      let m := m.modify i fun job => { job with processes }
      if failed || !(m.job i).complete then (false, m)
      else (true, m.modify i Job.resumed)

/-! ### Selecting and printing -/

namespace Manager

/-- The jobs `current_job` counts through, stopped ones first. -/
def currentJobs (m : Manager σ) : List ℕ :=
  let class' (wanted : Bool) := (List.range m.jobs.length).filter fun i =>
    (m.job i).background && !(m.job i).complete && (m.job i).stopped == wanted
  class' true ++ class' false

/-- `current_job`. -/
def currentJob (m : Manager σ) (previous : ℕ) : Option ℕ := m.currentJobs[previous]?

/-- `marker`. -/
def marker (m : Manager σ) (i : ℕ) : Marker :=
  if m.currentJob 0 = some i then .current
  else if m.currentJob 1 = some i then .previous
  else .blank

end Manager

/-- The state `print_job` shows. -/
def Job.stateText (job : Job) : StateText :=
  if job.stopped then
    let number := job.status - 128
    if number = host.number .tstp then .stopped else .stoppedBy number
  else if job.complete then
    if job.selected.status.ifSignaled then .terminated job.selected.status.termSig
    else if job.status = 0 then .done
    else .doneWith job.status
  else .running

/-- The further lines of `jobs -l`. -/
def Manager.printStages (stream : Stream) (text : Bytes) :
    List Process → Manager σ → Bool × Manager σ
  | [], m => (true, m)
  | p :: ps, m =>
    let (written, m) := m.output host stream (.stage p.pid text)
    if written then printStages stream text ps m else (false, m)

/-- `print_job`. -/
def Manager.printJob (m : Manager σ) (i : ℕ) (stream : Stream) (format : Format) :
    Bool × Manager σ :=
  let job := m.job i
  let line pid := Line.job job.id (m.marker i) pid (job.stateText host) job.text
  match format with
  | .pids => m.output host stream (.pid job.displayedPid)
  | .short => m.output host stream (line none)
  | .long =>
    let (written, m) := m.output host stream (line (some job.displayedPid))
    if written then
      m.printStages host stream job.text (job.processes.filter fun p => p.pid != job.displayedPid)
    else (false, m)

/-- What a successful report leaves of a job. -/
def Job.told (job : Job) : Job :=
  { job with changed := false, reported := job.reported || job.complete }

/-- `csh_jobs_announce`. -/
def Manager.announce (m : Manager σ) (i : ℕ) : Manager σ :=
  if m.interactive then
    (m.output host .stderr (.announced (m.job i).id ((m.job i).processes.getLastD {}).pid)).2
  else m

/-- One round of the loop of `csh_jobs_notify`. -/
def Manager.notifyOne (m : Manager σ) (i : ℕ) : Manager σ :=
  if (m.job i).background && (m.job i).changed then
    let (written, m) := m.printJob host i .stderr .short
    if written then m.modify i Job.told else m
  else m

/-- `csh_jobs_notify`. -/
def Manager.notify (m : Manager σ) : Manager σ :=
  if m.interactive then (List.range m.jobs.length).foldl (Manager.notifyOne host) m else m

/-- The value of a digit string. -/
def decimal (digits : Bytes) : ℕ := digits.foldl (fun n byte => 10 * n + (byte.toNat - 48)) 0

/-- `number`: a signed decimal that fits a `long`. -/
def number (text : Bytes) : Option ℤ :=
  let (negative, digits) := match text with
    | [] => (false, [])
    | byte :: rest =>
      if byte = byteOf '-' then (true, rest)
      else if byte = byteOf '+' then (false, rest)
      else (false, byte :: rest)
  if digits = [] || !digits.all digit then none
  else
    let value : ℤ := if negative then -(decimal digits : ℤ) else decimal digits
    if -2 ^ 63 ≤ value ∧ value < 2 ^ 63 then some value else none

/-- `strstr`. -/
def contains (text part : Bytes) : Bool := text.tails.any fun t => part.isPrefixOf t

/-- `find_job`. -/
def Manager.findJob (m : Manager σ) (operand : Option Bytes) (pidOk : Bool) : Option ℕ :=
  let places := List.range m.jobs.length
  match operand with
  | none => m.currentJob 0
  | some operand =>
    if operand = ascii "%" ∨ operand = ascii "%%" ∨ operand = ascii "%+" then m.currentJob 0
    else if operand = ascii "%-" then m.currentJob 1
    else match operand with
      | [] => none
      | byte :: rest =>
        if byte ≠ byteOf '%' then
          if !pidOk then none
          else do
            let value ← number operand
            if value ≤ 0 then none
            else places.find? fun i => ((m.job i).processes.getLastD {}).pid == value
        else if rest.head?.any digit then do
          let value ← number rest
          if value ≤ 0 then none
          else places.find? fun i => ((m.job i).id : ℤ) == value &&
            (pidOk || !(m.job i).complete || !(m.job i).reported)
        else
          let found := places.filter fun i =>
            (if rest.head? = some (byteOf '?') then contains (m.job i).text rest.tail
             else rest.isPrefixOf (m.job i).text) && !(m.job i).complete
          match found with
          | [i] => some i
          | _ => none

/-! ### Waiting -/

/-- The loop of `wait_job`; `none` when it is still suspended. -/
def Manager.waitLoop (i : ℕ) (interruptible : Bool) : ℕ → Manager σ → Option ℤ × Manager σ
  | 0, m => (none, m)
  | rounds + 1, m =>
    let (polled, m) := m.poll host
    if !polled then (some (-1), m)
    else
      let m := if hasBit m.options Opt.notify then m.notify host else m
      let seen := host.attention m.world
      if seen.hungUp ≠ 0 then (some (128 + seen.hungUp), m)
      else if interruptible ∧ seen.trap ≠ 0 then (some (128 + seen.trap), m)
      else if interruptible ∧ seen.interrupted ≠ 0 then (some (128 + seen.interrupted), m)
      else if (m.job i).complete || (m.job i).grouped && (m.job i).stopped then (some 0, m)
      else waitLoop i interruptible rounds { m with world := host.suspend m.world }

/-- `wait_job`. -/
def Manager.waitJob (rounds : ℕ) (m : Manager σ) (i : ℕ) (interruptible : Bool) :
    Option ℤ × Manager σ :=
  { m with world := host.clearInterrupt m.world }.waitLoop host i interruptible rounds

/-! ### The terminal -/

/-- `restore_terminal`. -/
def Manager.restoreTerminal (m : Manager σ) (i : ℕ) : Bool × Manager σ :=
  if !(m.job i).grouped || !m.tty then (true, m)
  else
    let m := if (m.job i).stopped then
        let (kept, m) := m.on fun w => host.terminal w .getModes
        m.modify i fun job => { job with modesValid := kept }
      else m
    -- the shell's own group
    let (regained, m) := m.on fun w => host.terminal w (.setGroup 0)
    if m.modesValid then
      let (restored, m) := m.on fun w => host.terminal w .setModes
      (regained && restored, if restored then { m with modesValid := false } else m)
    else (regained, m)

/-- `csh_jobs_give_terminal`. -/
def Manager.giveTerminal (m : Manager σ) (i : ℕ) (resume : Bool) : Bool × Manager σ :=
  if !(m.job i).grouped then (true, m)
  else
    let (kept, m) := m.on fun w => host.terminal w .getModes
    if !kept then (false, m)
    else
      let m := { m with modesValid := true }
      let (given, m) := m.on fun w => host.terminal w (.setGroup (m.job i).pgid)
      if !given then (false, m)
      else if resume && (m.job i).modesValid then m.on fun w => host.terminal w .setModes
      else (true, m)

/-! ### Foreground, cancellation and registration -/

/-- How `csh_jobs_foreground` ends. -/
inductive Foreground
  | waiting
  | failed
  | left (status : ℤ) (suspended : Bool)
  deriving DecidableEq, Repr, Inhabited

/-- The part of `csh_jobs_foreground` that resumes a stopped job. -/
def Manager.resume (m : Manager σ) (i : ℕ) : Bool × Manager σ :=
  let (given, m) := m.giveTerminal host i true
  if !given then (false, m)
  else
    let (written, m) := m.output host .stdout (.command (m.job i).text)
    if written then m.continueJob host i else (false, m)

/-- `csh_jobs_foreground`. -/
def Manager.foreground (rounds : ℕ) (m : Manager σ) (i : ℕ) (resume : Bool) :
    Foreground × Manager σ :=
  let m := m.modify i fun job => { job with background := false }
  let (resumed, m) := if resume then m.resume host i else (true, m)
  let (rc, m) := if resumed then m.waitJob host rounds i false else (some (-1), m)
  match rc with
  | none => (.waiting, m)
  | some rc =>
    let (restored, m) := m.restoreTerminal host i
    if !restored || rc = -1 then
      (.failed, m.modify i fun job => { job with background := true })
    else
      let status := if 0 < rc then rc else (m.job i).status
      if (m.job i).complete then (.left status false, m.remove i)
      else (.left status (m.job i).stopped,
        (m.modify i fun job => { job with background := true, changed := true }).promote i)

/-- The `SIGKILL`s of `csh_jobs_cancel`. -/
def killAll (job : Job) (world : σ) : σ :=
  let world := if job.grouped && decide (0 < job.pgid) && !job.complete then
      (host.kill world (-job.pgid) (host.number .kill)).2 else world
  job.processes.foldl
    (fun w p => if p.live then (host.kill w p.pid (host.number .kill)).2 else w) world

/-- The waits of `csh_jobs_cancel`. -/
def reapAll : List Process → σ → List Process × σ
  | [], world => ([], world)
  | p :: ps, world =>
    if !p.live then
      let (ps, world) := reapAll ps world
      (p :: ps, world)
    else
      let (ended, world) := host.wait world p.pid
      let (ps, world) := reapAll ps world
      ({ p with status := (ended.map Ended.status).getD p.status, done := true } :: ps, world)

/-- `csh_jobs_cancel`. -/
def Manager.cancel (m : Manager σ) (i : ℕ) : Manager σ :=
  let m := { m with world := killAll host (m.job i) m.world }
  let (processes, m) := m.on (reapAll host (m.job i).processes)
  let m := m.modify i fun job => { job with processes }
  (m.restoreTerminal host i).2.remove i

/-- The oldest of the completed jobs, the last of them in the list. -/
def Manager.oldest (m : Manager σ) : Option ℕ :=
  ((List.range m.jobs.length).filter fun i => (m.job i).complete).getLast?

/-- The loop of `csh_jobs_add` that makes room. -/
def Manager.evict : ℕ → Manager σ → Manager σ
  | 0, m => m
  | rounds + 1, m =>
    if m.retained < m.retentionLimit then m
    else if m.jobs.countP Job.complete < m.retentionLimit then m
    else match m.oldest with
      | some i => evict rounds (m.remove i)
      | none => m

/-- `csh_jobs_add`; the new job is the first of the list. -/
def Manager.add (m : Manager σ) (count : ℕ) (text : Bytes) (asynchronous negated : Bool) :
    Bool × Manager σ :=
  if count = 0 ∨ m.nextId = 2 ^ 32 - 1 then (false, m)
  else
    let m := if asynchronous then m.evict m.jobs.length else m
    let job : Job :=
      { id := m.nextId, processes := List.replicate count {}, text, grouped := m.monitor
        background := asynchronous, negated, pipefail := hasBit m.options Opt.pipefail }
    (true, { m with jobs := job :: m.jobs, nextId := m.nextId + 1, retained := m.retained + 1 })

/-- The executor's entry of a forked stage into its job. -/
def Job.assign (stage : ℕ) (pid : ℤ) (job : Job) : Job :=
  { job with processes := job.processes.modify stage fun p => { p with pid }
             pgid := if job.pgid = 0 then pid else job.pgid }

/-! ### The builtins -/

/-- `csh_jobs_is_builtin`. -/
inductive Builtin
  | jobs | fg | bg | wait | kill | set
  deriving DecidableEq, Repr, Inhabited

/-- The name of a builtin. -/
def Builtin.text : Builtin → Bytes
  | jobs => ascii "jobs"
  | fg => ascii "fg"
  | bg => ascii "bg"
  | wait => ascii "wait"
  | kill => ascii "kill"
  | set => ascii "set"

/-- A byte with the letter case of `strcasecmp` taken off. -/
def lower (byte : UInt8) : UInt8 := if inRange 'A' 'Z' byte then byte + 32 else byte

/-- `csh_jobs_signal_number`. -/
def signalNumber (text : Bytes) : Option ℕ :=
  match number text with
  | some value =>
    if value = 0 then some 0
    else if 0 < value ∧ value < 2 ^ 31 ∧ host.validSignal value then some value.toNat
    else none
  | none =>
    (signalNames.find? fun entry => entry.1.map lower == text.map lower).map
      fun entry => host.number entry.2

/-- `kill -l` without operands. -/
def Manager.listSignals : List (Bytes × Signal) → Manager σ → ℤ × Manager σ
  | [], m => (0, m)
  | entry :: entries, m =>
    let (written, m) := m.output host .stdout (.signalName entry.1)
    if written then listSignals entries m
    else (1, m.diagnostic host (ascii "kill") (ascii "cannot write output") none)

/-- `kill -l` with operands. -/
def Manager.nameSignals : List Bytes → Manager σ → ℤ × Manager σ
  | [], m => (0, m)
  | operand :: operands, m =>
    match number operand with
    | none => (1, m.diagnostic host (ascii "kill") (ascii "invalid status") (some operand))
    | some value =>
      let value := if 128 < value then value - 128 else value
      match signalNames.find? fun entry => (host.number entry.2 : ℤ) == value with
      | none => (1, m.diagnostic host (ascii "kill") (ascii "invalid status") (some operand))
      | some entry =>
        let (written, m) := m.output host .stdout (.signalName entry.1)
        if written then nameSignals operands m
        else (1, m.diagnostic host (ascii "kill") (ascii "cannot write output") none)

/-- The stages of a job without a group, each sent the signal on its own. -/
def Manager.killStages (operand : Bytes) (sig : ℕ) (clears : Bool) :
    List Process → ℤ → Manager σ → (List Process × ℤ) × Manager σ
  | [], rc, m => (([], rc), m)
  | p :: ps, rc, m =>
    if p.done then
      let ((ps, rc), m) := killStages operand sig clears ps rc m
      ((p :: ps, rc), m)
    else
      let (refused, m) := m.on fun w => host.kill w p.pid sig
      match refused with
      | some error =>
        let m := m.diagnostic host (ascii "kill") error (some operand)
        let ((ps, rc), m) := killStages operand sig clears ps 1 m
        ((p :: ps, rc), m)
      | none =>
        let ((ps, rc), m) := killStages operand sig clears ps rc m
        (((if clears then { p with stopped := false } else p) :: ps, rc), m)

/-- `kill` of a job. -/
def Manager.killJob (m : Manager σ) (operand : Bytes) (i : ℕ) (sig : ℕ) (rc : ℤ) : ℤ × Manager σ :=
  let clears := sig = host.number .cont || sig = host.number .kill
  if (m.job i).grouped then
    let (refused, m) := m.on fun w => host.kill w (-(m.job i).pgid) sig
    match refused with
    | some error => (1, m.diagnostic host (ascii "kill") error (some operand))
    | none =>
      (rc, if clears then
          m.modify i fun job =>
            { job with processes := job.processes.map fun p => { p with stopped := false } }
        else m)
  else
    let ((processes, rc), m) :=
      m.killStages host operand sig clears (m.job i).processes rc
    (rc, m.modify i fun job => { job with processes })

/-- The operands of `kill`. -/
def Manager.killOperands (sig : ℕ) : List Bytes → ℤ → Manager σ → ℤ × Manager σ
  | [], rc, m => (rc, m)
  | operand :: operands, rc, m =>
    if operand.head? = some (byteOf '%') then
      match m.findJob (some operand) false with
      | none =>
        killOperands sig operands 1
          (m.diagnostic host (ascii "kill") (ascii "no such job") (some operand))
      | some i =>
        if (m.job i).complete then
          killOperands sig operands 1
            (m.diagnostic host (ascii "kill") (ascii "no such job") (some operand))
        else
          let (rc, m) := m.killJob host operand i sig rc
          killOperands sig operands rc m
    else match number operand with
      | none =>
        killOperands sig operands 1
          (m.diagnostic host (ascii "kill") (ascii "invalid pid") (some operand))
      | some value =>
        if value < -2 ^ 31 ∨ 2 ^ 31 ≤ value then
          killOperands sig operands 1
            (m.diagnostic host (ascii "kill") (ascii "invalid pid") (some operand))
        else
          let (refused, m) := m.on fun w => host.kill w value sig
          match refused with
          | some error =>
            killOperands sig operands 1 (m.diagnostic host (ascii "kill") error (some operand))
          | none => killOperands sig operands rc m

/-- `--` taken off a list of operands. -/
def skipDashes : List Bytes → List Bytes
  | [] => []
  | operand :: operands => if operand = ascii "--" then operands else operand :: operands

/-- `kill_builtin` once its signal is known. -/
def Manager.killWith (m : Manager σ) (sig : Option ℕ) (operands : List Bytes) : ℤ × Manager σ :=
  match sig with
  | none => (1, m.diagnostic host (ascii "kill") (ascii "invalid signal") none)
  | some sig =>
    match skipDashes operands with
    | [] => (1, m.diagnostic host (ascii "kill") (ascii "operand required") none)
    | operands => m.killOperands host sig operands 0

/-- `kill_builtin`. -/
def Manager.killBuiltin (m : Manager σ) (operands : List Bytes) : ℤ × Manager σ :=
  match operands with
  | [] => m.killWith host (some (host.number .term)) []
  | first :: rest =>
    if first = ascii "-l" then
      match rest with
      | [] => m.listSignals host signalNames
      | _ => m.nameSignals host rest
    else if first = ascii "-s" then
      match rest with
      | [] => (1, m.diagnostic host (ascii "kill") (ascii "signal required") none)
      | name :: rest => m.killWith host (signalNumber host name) rest
    else if first.head? = some (byteOf '-') ∧ first ≠ ascii "--" then
      m.killWith host (signalNumber host first.tail) rest
    else m.killWith host (some (host.number .term)) operands

/-- `jobs` without operands, at one job. -/
def Manager.listJob (format : Format) (answer : ℤ × Manager σ) (i : ℕ) : ℤ × Manager σ :=
  let (rc, m) := answer
  if (m.job i).complete && (m.job i).reported then (rc, m)
  else
    let (written, m) := m.printJob host i .stdout format
    if written then (rc, m.modify i Job.told)
    else (1, m.diagnostic host (ascii "jobs") (ascii "cannot write output") none)

/-- The operands of `jobs`. -/
def Manager.listOperands (format : Format) : List Bytes → ℤ → Manager σ → ℤ × Manager σ
  | [], rc, m => (rc, m)
  | operand :: operands, rc, m =>
    match m.findJob (some operand) false with
    | none =>
      listOperands format operands 1
        (m.diagnostic host (ascii "jobs") (ascii "no such job") (some operand))
    | some i =>
      let (written, m) := m.printJob host i .stdout format
      if written then listOperands format operands rc (m.modify i Job.told)
      else
        listOperands format operands 1
          (m.diagnostic host (ascii "jobs") (ascii "cannot write output") none)

/-- The options of `jobs`. -/
def jobsFormat : List Bytes → Format × List Bytes
  | [] => (.short, [])
  | first :: rest =>
    if first = ascii "-l" then (.long, skipDashes rest)
    else if first = ascii "-p" then (.pids, skipDashes rest)
    else (.short, skipDashes (first :: rest))

/-- `jobs`. -/
def Manager.listJobs (m : Manager σ) (operands : List Bytes) : ℤ × Manager σ :=
  match jobsFormat operands with
  | (format, []) => (List.range m.jobs.length).foldl (Manager.listJob host format) (0, m)
  | (format, operands) => m.listOperands host format operands 0

/-- `wait` without operands: every job from a place on.  A job that is removed leaves
its place to the next one. -/
def Manager.waitAll (rounds : ℕ) : ℕ → ℕ → Manager σ → Option ℤ × Manager σ
  | 0, _, m => (some 0, m)
  | remaining + 1, i, m =>
    let (rc, m) := m.waitJob host rounds i true
    match rc with
    | none => (none, m)
    | some rc =>
      if rc < 0 then
        (some 1, m.diagnostic host (ascii "wait") (ascii "cannot wait") none)
      else if rc ≠ 0 then (some rc, m)
      else if (m.job i).complete then waitAll rounds remaining i (m.remove i)
      else waitAll rounds remaining (i + 1) m

/-- The operands of `wait`. -/
def Manager.waitOperands (rounds : ℕ) : List Bytes → ℤ → Manager σ → Option ℤ × Manager σ
  | [], rc, m => (some rc, m)
  | operand :: operands, _, m =>
    match m.findJob (some operand) true with
    | none =>
      waitOperands rounds operands 127
        (m.diagnostic host (ascii "wait") (ascii "unknown job or pid") (some operand))
    | some i =>
      let (rc, m) := m.waitJob host rounds i true
      match rc with
      | none => (none, m)
      | some rc =>
        if rc < 0 then
          (some 1, m.diagnostic host (ascii "wait") (ascii "cannot wait") (some operand))
        else if rc ≠ 0 then (some rc, m)
        else
          waitOperands rounds operands (m.job i).status
            (if (m.job i).complete then m.remove i else m)

/-- `fg` and `bg` of one operand. -/
def Manager.resumeOperand (rounds : ℕ) (name : Builtin) (operand : Option Bytes) (rc : ℤ)
    (m : Manager σ) : Option ℤ × Manager σ :=
  match m.findJob operand false with
  | none => (some 1, m.diagnostic host name.text (ascii "no such job") operand)
  | some i =>
    if (m.job i).complete then (some 1, m.diagnostic host name.text (ascii "no such job") operand)
    else if !(m.job i).grouped then
      (some 1, m.diagnostic host name.text (ascii "job was started without job control") operand)
    else if name = .fg then
      let (ended, m) := m.foreground host rounds i true
      match ended with
      | .waiting => (none, m)
      | .failed => (some 1, m.diagnostic host name.text (ascii "cannot foreground job") operand)
      | .left status _ => (some status, m)
    else
      let (continued, m) := m.continueJob host i
      if !continued then (some 1, m.diagnostic host name.text (ascii "cannot continue job") operand)
      else
        let m := (m.modify i fun job => { job with background := true }).promote i
        let (written, m) := m.printJob host 0 .stdout .short
        if written then (some rc, m)
        else (some 1, m.diagnostic host name.text (ascii "cannot write output") none)

/-- The loop of `fg` and `bg` over the operands after the first. -/
def Manager.resumeOperands (rounds : ℕ) (name : Builtin) :
    List Bytes → ℤ → Manager σ → Option ℤ × Manager σ
  | [], rc, m => (some rc, m)
  | operand :: operands, rc, m =>
    match m.resumeOperand host rounds name (some operand) rc with
    | (none, m) => (none, m)
    | (some rc, m) => resumeOperands rounds name operands rc m

/-- `fg` and `bg`. -/
def Manager.resumeBuiltin (rounds : ℕ) (m : Manager σ) (name : Builtin) (operands : List Bytes) :
    Option ℤ × Manager σ :=
  if !m.monitor then (some 1, m.diagnostic host name.text (ascii "job control unavailable") none)
  else if name = .fg ∧ 1 < operands.length then
    (some 1, m.diagnostic host name.text (ascii "too many operands") none)
  else match operands with
    | [] => m.resumeOperand host rounds name none 0
    | _ => m.resumeOperands host rounds name operands 0

/-- `csh_jobs_builtin`; `none` while it waits. -/
def Manager.jobsBuiltin (rounds : ℕ) (m : Manager σ) (name : Builtin) (operands : List Bytes) :
    Option ℤ × Manager σ :=
  let (polled, m) := m.poll host
  if !polled then (some 1, m.diagnostic host name.text (ascii "cannot collect child status") none)
  else if name = .kill then
    let (rc, m) := m.killBuiltin host operands
    (some rc, m)
  else if name = .set then
    let ((rc, options), m) := m.on fun w => host.set w m.options operands
    (some rc, { m with options })
  else if name = .jobs then
    let (rc, m) := m.listJobs host operands
    (some rc, m)
  else if name = .wait then
    match skipDashes operands with
    | [] => m.waitAll host rounds m.jobs.length 0
    | operands => m.waitOperands host rounds operands 0
  else m.resumeBuiltin host rounds name (skipDashes operands)

/-! ### Launching -/

/-- The stages of a launch: each is forked and entered into the job at the head. -/
def Manager.forkStages : ℕ → ℕ → Manager σ → Bool × Manager σ
  | 0, _, m => (true, m)
  | remaining + 1, stage, m =>
    let (forked, m) := m.on host.fork
    match forked with
    | none => (false, m)
    | some pid =>
      let m := m.modify 0 (Job.assign stage pid)
      let (grouped, m) :=
        if (m.job 0).grouped then m.on fun w => host.setpgid w pid (m.job 0).pgid else (true, m)
      if grouped then forkStages remaining (stage + 1) m else (false, m)

/-- The part of `context_job` between the registration and the wait. -/
def Manager.start (m : Manager σ) (count : ℕ) (asynchronous : Bool) : Bool × Manager σ :=
  let (raised, m) := m.on host.barrier
  if !raised then (false, m)
  else
    let (forked, m) := m.forkStages host count 0
    if !forked then (false, m)
    else
      let (given, m) := if asynchronous then (true, m) else m.giveTerminal host 0 false
      if !given then (false, m) else m.on host.release

/-- `context_job`: a job is registered, its stages are forked, and it is announced or
waited for; a launch that fails is cancelled. -/
def Manager.launch (rounds : ℕ) (m : Manager σ) (count : ℕ) (text : Bytes)
    (asynchronous negated : Bool) : Option ℤ × Manager σ :=
  let (added, m) := m.add count text asynchronous negated
  if !added then (some (-1), m)
  else
    let (started, m) := m.start host count asynchronous
    if !started then (some (-1), m.cancel host 0)
    else if asynchronous then (some 0, m.announce host 0)
    else
      let (ended, m) := m.foreground host rounds 0 false
      match ended with
      | .waiting => (none, m)
      | .failed => (some (-1), m.cancel host 0)
      | .left status _ => (some status, m)

/-! ### Runs -/

/-- The waits of `csh_jobs_reap`. -/
def Manager.reapFrom (rounds : ℕ) : ℕ → ℕ → Manager σ → Manager σ
  | 0, _, m => m
  | remaining + 1, i, m =>
    let (rc, m) := m.waitJob host rounds i false
    if rc.any fun rc => 0 ≤ rc then reapFrom rounds remaining (i + 1) m else m

/-- `csh_jobs_reap`. -/
def Manager.reap (rounds : ℕ) (m : Manager σ) (wait : Bool) : Manager σ :=
  let (polled, m) := m.poll host
  if polled && wait then m.reapFrom host rounds m.jobs.length 0 else m

/-- `csh_jobs_destroy`: the records are freed one after the other. -/
def Manager.destroy (m : Manager σ) : Manager σ :=
  let (_, m) := m.poll host
  { m with jobs := [], retained := m.retained - m.jobs.length, freed := m.freed ++ m.jobs }

/-- The calls on a table.  The executor enters the process of a stage with `assign`;
`elapse` is anything that happens outside, `options` a change of the shell's options. -/
inductive Op (σ : Type)
  | add (count : ℕ) (text : Bytes) (asynchronous negated : Bool)
  | assign (i stage : ℕ) (pid : ℤ)
  | launch (rounds count : ℕ) (text : Bytes) (asynchronous negated : Bool)
  | announce (i : ℕ)
  | poll
  | notify
  | reap (rounds : ℕ) (wait : Bool)
  | giveTerminal (i : ℕ) (resume : Bool)
  | foreground (rounds i : ℕ) (resume : Bool)
  | cancel (i : ℕ)
  | remove (i : ℕ)
  | builtin (rounds : ℕ) (name : Builtin) (operands : List Bytes)
  | options (options : UInt32)
  | elapse (world : σ)
  | destroy

/-- One call.  A place stands for a pointer into the list, so it is one of the list. -/
def Manager.perform (m : Manager σ) : Op σ → Manager σ
  | .add count text asynchronous negated => (m.add count text asynchronous negated).2
  | .assign i stage pid => m.modify i (Job.assign stage pid)
  | .launch rounds count text asynchronous negated =>
    (m.launch host rounds count text asynchronous negated).2
  | .announce i => if i < m.jobs.length then m.announce host i else m
  | .poll => (m.poll host).2
  | .notify => m.notify host
  | .reap rounds wait => m.reap host rounds wait
  | .giveTerminal i resume =>
    if i < m.jobs.length then (m.giveTerminal host i resume).2 else m
  | .foreground rounds i resume =>
    if i < m.jobs.length then (m.foreground host rounds i resume).2 else m
  | .cancel i => if i < m.jobs.length then m.cancel host i else m
  | .remove i => if i < m.jobs.length then m.remove i else m
  | .builtin rounds name operands => (m.jobsBuiltin host rounds name operands).2
  | .options options => { m with options }
  | .elapse world => { m with world }
  | .destroy => m.destroy host

/-- The calls of a run, one after the other.  A call that is still waiting is left
there; to go on from it only adds states. -/
def Manager.run (m : Manager σ) (ops : List (Op σ)) : Manager σ :=
  ops.foldl (Manager.perform host) m

end Jobs

end CShell
