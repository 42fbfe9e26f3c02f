import CShell.Jobs.Status
import CShell.Redirect.Model

/-!
# The pipes of a pipeline

`csh_execute_pipeline`, `context_pipeline` and `context_job` launch the stages of a
pipeline in the same way: a pipe is made, a child is forked that puts the end before it
on its input and the end behind it on its output, and the shell closes the ends it no
longer needs.  Private ends are kept off the descriptors 0 to 2, whether these are open or
not, and every child closes all of them, so that a reader sees the end of its input as
soon as the one stage that writes it is gone.

What else the shell keeps for itself, its terminal and the backups of redirections, a
child gives up.  A pipeline of one stage is no launch: it runs in the shell.

The descriptor table is that of `Redirect.Kernel`.  A pipe has the number of the stage
that writes it.  The system may refuse a pipe, a fork, a process group, the terminal, the
null device and a wait.

## Main definitions

* `Handle` — the open file descriptions: those there were, and the ends of pipes.
* `pipelinePipe`, `stageChild`, `launchStages` — the launch.
* `executePipeline`, `contextPipeline`, `contextJob` — the three callers.
* `Wired` — what the table of a stage should be.

## Main results

* `launchStages_spec` — what the launch leaves open, and what every stage starts with.
* `pipelines_wired` — **each stage reads the stage before it and writes to the one behind
  it, nobody else holds an end of a pipe, and the shell's own table is as it was.**

## References

`src/execute.c` (`pipeline_pipe`, `pipeline_connect`, `pipeline_child`, `pipeline_cancel`,
`csh_execute_pipeline`, `background_setup`, `context_child`, `context_pipeline`,
`context_job`), `src/jobs.c` (`csh_jobs_after_fork`), `src/redirect.c`
(`csh_redirect_child`).
-/

namespace CShell

namespace Jobs

open List
open Redirect (Kernel Slot)

/-! ### Pipes -/

/-- An open file description: one there was before, an end of the pipe that a stage
writes, an end of the barrier of a launch, or `/dev/null`. -/
inductive Handle (D : Type)
  | file (description : D)
  | reader (stage : ℕ)
  | writer (stage : ℕ)
  | gateReader
  | gateWriter
  | null
  deriving DecidableEq, Repr

/-- What the system answers to the calls it can refuse. -/
structure System (W : Type) where
  pipe : W → Except Redirect.Errno Unit × W
  fork : W → Except Redirect.Errno ℤ × W
  setpgid : W → Except Redirect.Errno Unit × W
  giveTerminal : W → Except Redirect.Errno Unit × W
  openNull : W → Except Redirect.Errno Unit × W
  kill : W → ℤ → W
  waitpid : W → ℤ → Except Redirect.Errno Ended × W

section Launch

variable {W D : Type} {limit : ℕ}

/-- A descriptor table. -/
abbrev Handles (D : Type) (limit : ℕ) := Slots limit (Slot (Handle D))

/-- The shell's process, or a child's. -/
abbrev Descriptors (W D : Type) (limit : ℕ) := Kernel W (Handle D) limit

/-- `pipe`: two numbers, or none when there are not two. -/
def makePipe (sys : System W) (reader writer : Handle D) (k : Descriptors W D limit) :
    Except Redirect.Errno (ℕ × ℕ) × Descriptors W D limit :=
  match sys.pipe k.world with
  | (.error err, world) => (.error err, { k with world })
  | (.ok (), world) =>
    match k.table.firstFree 0 with
    | none => (.error Redirect.Errno.mfile, { k with world })
    | some r =>
      let table := k.table.put r ⟨reader, false⟩
      match table.firstFree 0 with
      | none => (.error Redirect.Errno.mfile, { k with world })
      | some w => (.ok (r, w), { k with table := table.put w ⟨writer, false⟩, world })

/-- One turn of the loop of `pipeline_pipe`: an end below 3 is moved, any other closes
across `exec`. -/
def secureEnd (fd : ℕ) (k : Descriptors W D limit) : Except Redirect.Errno ℕ × Descriptors W D limit :=
  if fd < 3 then
    match k.duplicateFrom fd 3 with
    | (.error err, k) => (.error err, k)
    | (.ok moved, k) => (.ok moved, k.closeDescriptor fd)
  else
    match k.setDescriptorFlags fd true with
    | (.error err, k) => (.error err, k)
    | (.ok (), k) => (.ok fd, k)

/-- `pipeline_pipe`. -/
def pipelinePipe (sys : System W) (reader writer : Handle D) (k : Descriptors W D limit) :
    Except Redirect.Errno (ℕ × ℕ) × Descriptors W D limit :=
  match makePipe sys reader writer k with
  | (.error err, k) => (.error err, k)
  | (.ok (r, w), k) =>
    match secureEnd r k with
    | (.error err, k) => (.error err, (k.closeDescriptor r).closeDescriptor w)
    | (.ok r, k) =>
      match secureEnd w k with
      | (.error err, k) => (.error err, (k.closeDescriptor r).closeDescriptor w)
      | (.ok w, k) => (.ok (r, w), k)

/-- `pipe_close`, of a number or of `-1`. -/
def pipeClose (fd : Option ℕ) (k : Descriptors W D limit) : Descriptors W D limit :=
  match fd with
  | none => k
  | some fd => k.closeDescriptor fd

/-- `pipeline_connect`; `none` when `dup2` fails. -/
def pipelineConnect (source : Option ℕ) (target : ℕ) (k : Descriptors W D limit) :
    Option (Descriptors W D limit) :=
  match source with
  | none => some k
  | some source =>
    match k.duplicateTo source target with
    | (.error _, _) => none
    | (.ok (), k) => some k

/-! ### Stages -/

/-- `background_setup`, as far as descriptors go; `none` when the child exits. -/
def backgroundSetup (sys : System W) (redirectInput : Bool) (k : Descriptors W D limit) :
    Option (Descriptors W D limit) :=
  if redirectInput then
    let call := fun world =>
      match sys.openNull world with
      | (.error err, world) => (.error err, world)
      | (.ok (), world) => (.ok (Handle.null, ()), world)
    match k.openWith call false with
    | (.error _, _) => none
    | (.ok (fd, ()), k) =>
      (pipelineConnect (some fd) 0 k).map fun k => if fd ≠ 0 then k.closeDescriptor fd else k
  else some k

/-- The ends of a pipe, or twice `-1`. -/
abbrev Ends := Option (ℕ × ℕ)

/-- The three `pipe_close` calls, on the end before a stage and the pipe behind it. -/
def closeEnds (previous : Option ℕ) (ends : Ends) (k : Descriptors W D limit) :
    Descriptors W D limit :=
  pipeClose (ends.map Prod.snd) (pipeClose (ends.map Prod.fst) (pipeClose previous k))

/-- What a launch depends on: whether its stages are put into a process group, whether
they run in the background without one, the terminal its children close, and the backups of
redirections they drop. -/
structure Style where
  grouped : Bool := false
  background : Bool := false
  terminal : Option ℕ := none
  backups : List ℕ := []
  deriving DecidableEq, Repr, Inhabited

/-- What a child does not keep. -/
def Style.dropped (style : Style) : List ℕ := style.terminal.toList ++ style.backups

/-- A child between `fork` and its command: the table it runs the stage with, or `none`
when it exits before that. -/
def stageChild (sys : System W) (style : Style) (gate : Ends) (index : ℕ) (previous : Option ℕ)
    (ends : Ends) (k : Descriptors W D limit) : Option (Descriptors W D limit) := do
  -- the child closes its write end of the barrier and, in `csh_jobs_after_fork`, the
  -- terminal, waits at the barrier, and closes the other end
  let k := pipeClose (gate.map Prod.fst) (pipeClose style.terminal (pipeClose (gate.map Prod.snd) k))
  let started := if style.background then backgroundSetup sys (index == 0) k else some k
  let k ← started
  let k ← pipelineConnect previous 0 k
  let k ← pipelineConnect (ends.map Prod.snd) 1 k
  -- `csh_redirect_child`
  return style.backups.foldl Kernel.closeDescriptor (closeEnds previous ends k)

/-- The shell while it launches: its own process, and its stages, each with the table the
child begins its command with. -/
structure Launch (W D : Type) (limit : ℕ) where
  kernel : Descriptors W D limit
  stages : List (Stage × Option (Descriptors W D limit)) := []

/-- The pipe behind a stage that others follow; `ends` stays `-1` behind the last. -/
def stagePipe (sys : System W) (left index : ℕ) (k : Descriptors W D limit) :
    Except Redirect.Errno Ends × Descriptors W D limit :=
  if left = 0 then (.ok none, k)
  else
    match pipelinePipe sys (.reader index) (.writer index) k with
    | (.error err, k) => (.error err, k)
    | (.ok ends, k) => (.ok (some ends), k)

/-- The launch loop of the three callers, with the stages still to come: the pipe to the
next stage, if there is one, the child, and the ends the shell is done with. -/
def launchStages (sys : System W) (style : Style) (gate : Ends) :
    ℕ → ℕ → Option ℕ → Launch W D limit → Except Redirect.Errno Unit × Launch W D limit
  | 0, _, _, l => (.ok (), l)
  | left + 1, index, previous, l =>
    match stagePipe sys left index l.kernel with
    | (.error err, k) => (.error err, { l with kernel := pipeClose previous k })
    | (.ok ends, k) =>
      match sys.fork k.world with
      | (.error err, world) =>
        (.error err, { l with kernel := closeEnds previous ends { k with world } })
      | (.ok pid, world) =>
        let k := { k with world }
        let child := stageChild sys style gate index previous ends k
        let stages := l.stages ++ [({ pid }, child)]
        let grouped := if style.grouped then sys.setpgid k.world else (.ok (), k.world)
        match grouped with
        | (.error err, world) =>
          (.error err, { kernel := closeEnds previous ends { k with world }, stages })
        | (.ok (), world) =>
          let k := pipeClose (ends.map Prod.snd) (pipeClose previous { k with world })
          launchStages sys style gate left (index + 1) (ends.map Prod.fst) ⟨k, stages⟩

/-! ### The three callers -/

/-- `stage_wait`; `none` when `waitpid` fails. -/
def stageWait (sys : System W) (stage : Stage) (w : W) : Option Stage × W :=
  match sys.waitpid w stage.pid with
  | (.error _, w) => (none, w)
  | (.ok ended, w) => (some (stage.wait ended), w)

/-- The stages waited for in order, until a wait fails. -/
def waitStages {α : Type} (sys : System W) : List (Stage × α) → W → Bool × List (Stage × α) × W
  | [], w => (true, [], w)
  | (stage, child) :: rest, w =>
    match stageWait sys stage w with
    | (none, w) => (false, (stage, child) :: rest, w)
    | (some stage, w) =>
      match waitStages sys rest w with
      | (done, rest, w) => (done, (stage, child) :: rest, w)

/-- The second loop of `pipeline_cancel`. -/
def reapStages {α : Type} (sys : System W) : List (Stage × α) → W → List (Stage × α) × W
  | [], w => ([], w)
  | (stage, child) :: rest, w =>
    match if stage.reaped then (none, w) else stageWait sys stage w with
    | (waited, w) =>
      match reapStages sys rest w with
      | (rest, w) => ((waited.getD stage, child) :: rest, w)

/-- `pipeline_cancel`: every stage that is not reaped is killed before any is waited for. -/
def pipelineCancel (sys : System W) (l : Launch W D limit) : Launch W D limit :=
  let world := l.stages.foldl
    (fun w stage => if stage.1.reaped then w else sys.kill w stage.1.pid) l.kernel.world
  match reapStages sys l.stages world with
  | (stages, world) => { kernel := { l.kernel with world }, stages }

/-- The end of a launch in which all stages are waited for, or killed. -/
def finishStages (sys : System W) (r : Except Redirect.Errno Unit × Launch W D limit) :
    Bool × Launch W D limit :=
  match r with
  | (.error _, l) => (false, pipelineCancel sys l)
  | (.ok (), l) =>
    match waitStages sys l.stages l.kernel.world with
    | (true, stages, world) => (true, { kernel := { l.kernel with world }, stages })
    | (false, stages, world) =>
      (false, pipelineCancel sys { kernel := { l.kernel with world }, stages })

/-- A process before the pipeline, whose descriptors are all of files. -/
def before (k : Kernel W D limit) : Descriptors W D limit :=
  ⟨k.table.map fun slot => ⟨.file slot.description, slot.cloexec⟩, k.world, k.bounded⟩

/-- What a command does that runs in the shell. -/
abbrev Inside (W D : Type) (limit : ℕ) := Kernel W D limit → Bool × Launch W D limit

/-- `csh_execute_pipeline`, with `count` stages that are prepared, from a shell whose jobs
have the terminal `terminal`; `inside` is `execute_resolved`. -/
def executePipeline (sys : System W) (inside : Inside W D limit) (terminal : Option ℕ) (count : ℕ)
    (k : Kernel W D limit) : Bool × Launch W D limit :=
  if count = 0 then (false, ⟨before k, []⟩)
  else if count = 1 then inside k
  else finishStages sys (launchStages sys { terminal } none count 0 none ⟨before k, []⟩)

/-- `context_pipeline` where there are no jobs; the stages of an asynchronous one are left
running.  `inside` is `execute_plan`. -/
def contextPipeline (sys : System W) (inside : Inside W D limit) (backups : List ℕ)
    (asynchronous : Bool) (count : ℕ) (k : Kernel W D limit) : Bool × Launch W D limit :=
  if count = 1 then inside k
  else
    let style : Style := { background := asynchronous, backups }
    match launchStages sys style none count 0 none ⟨before k, []⟩ with
    | (.ok (), l) => if asynchronous then (true, l) else finishStages sys (.ok (), l)
    | (.error err, l) => finishStages sys (.error err, l)

/-- `context_job` up to the release of the barrier, or to `csh_jobs_cancel`.  The children
of a prepared command, which is run by `launch_child`, drop no backups. -/
def contextJob (sys : System W) (terminal : Option ℕ) (backups : List ℕ)
    (asynchronous grouped : Bool) (count : ℕ) (k : Kernel W D limit) : Bool × Launch W D limit :=
  match pipelinePipe sys .gateReader .gateWriter (before k) with
  | (.error _, k) => (false, ⟨k, []⟩)
  | (.ok gate, k) =>
    let style : Style := { grouped, background := asynchronous && !grouped, terminal, backups }
    let release := fun k : Descriptors W D limit =>
      pipeClose (some gate.2) (pipeClose (some gate.1) k)
    match launchStages sys style (some gate) count 0 none ⟨k, []⟩ with
    | (.error _, l) => (false, { l with kernel := release l.kernel })
    | (.ok (), l) =>
      let given := if asynchronous then (.ok (), l.kernel.world) else sys.giveTerminal l.kernel.world
      match given with
      | (.error _, world) => (false, { l with kernel := release { l.kernel with world } })
      | (.ok (), world) => (true, { l with kernel := release { l.kernel with world } })

/-! ### Private descriptors -/

/-- A descriptor the shell keeps for itself, with what it refers to. -/
abbrev Own (D : Type) := ℕ × Handle D

/-- The table `t` is `base` with the descriptors `own` on top, which are off the standard
ones, closed across `exec` and free in `base`. -/
structure Private (base : Handles D limit) (own : List (Own D)) (t : Handles D limit) : Prop where
  hidden : t.hide (own.map Prod.fst) = base
  apart : ∀ p ∈ own, 3 ≤ p.1
  holds : ∀ p ∈ own, t.get p.1 = some ⟨p.2, true⟩
  nodup : (own.map Prod.fst).Nodup

section Private

variable {base t : Handles D limit} {own : List (Own D)} {fd : ℕ} {handle : Handle D}

theorem Private.nil (t : Handles D limit) : Private t [] t where
  hidden := Slots.hide_nil t
  apart := fun _ hp => by cases hp
  holds := fun _ hp => by cases hp
  nodup := nodup_nil

theorem Private.eq (h : Private base [] t) : t = base := by
  rw [← h.hidden]
  exact (Slots.hide_nil t).symm

theorem Private.perm {own' : List (Own D)} (h : Private base own t) (hp : own.Perm own') :
    Private base own' t where
  hidden := by
    rw [← h.hidden]
    refine Slots.hide_congr fun n => ?_
    have hmem : n ∈ own'.map Prod.fst ↔ n ∈ own.map Prod.fst := (hp.map Prod.fst).mem_iff.symm
    simp only [hmem]
  apart := fun p hmem => h.apart p (hp.mem_iff.mpr hmem)
  holds := fun p hmem => h.holds p (hp.mem_iff.mpr hmem)
  nodup := (hp.map Prod.fst).nodup_iff.mp h.nodup

/-- A private descriptor is closed. -/
theorem Private.close (h : Private base ((fd, handle) :: own) t) : Private base own (t.clear fd) where
  hidden := by
    rw [Slots.hide_clear_cons]
    exact h.hidden
  apart := fun p hp => h.apart p (mem_cons_of_mem _ hp)
  holds := by
    intro p hp
    have hne : p.1 ≠ fd := by
      rintro rfl
      have hnodup := h.nodup
      rw [map_cons, nodup_cons] at hnodup
      exact hnodup.1 (mem_map.mpr ⟨p, hp, rfl⟩)
    rw [Slots.get_clear, if_neg hne]
    exact h.holds p (mem_cons_of_mem _ hp)
  nodup := by
    have hnodup := h.nodup
    rw [map_cons, nodup_cons] at hnodup
    exact hnodup.2

/-- A descriptor that the table below has is closed. -/
theorem Private.drop (h : Private base own t) (hopen : base.get fd ≠ none) :
    Private (base.clear fd) own (t.clear fd) where
  hidden := by rw [Slots.hide_clear, h.hidden]
  apart := h.apart
  holds := by
    intro p hp
    have hne : p.1 ≠ fd := by
      rintro rfl
      rw [← h.hidden, Slots.get_hide, if_pos (mem_map_of_mem hp)] at hopen
      exact hopen rfl
    rw [Slots.get_clear, if_neg hne]
    exact h.holds p hp
  nodup := h.nodup

/-- A free number takes a private descriptor. -/
theorem Private.fill (h : Private base own t) (hfree : t.get fd = none) (hle : 3 ≤ fd) (hlt : fd < limit) :
    Private base ((fd, handle) :: own) (t.put fd ⟨handle, true⟩) where
  hidden := by
    rw [map_cons, Slots.hide_cons_put hfree]
    exact h.hidden
  apart := by
    intro p hp
    rcases mem_cons.mp hp with rfl | hp
    · exact hle
    · exact h.apart p hp
  holds := by
    intro p hp
    rcases mem_cons.mp hp with rfl | hp
    · exact Slots.get_put_self hlt _
    · have hget := h.holds p hp
      have hne : p.1 ≠ fd := by
        rintro rfl
        rw [hfree] at hget
        cases hget
      rw [Slots.get_put_of_ne _ hne, hget]
  nodup := by
    rw [map_cons, nodup_cons]
    refine ⟨fun hmem => ?_, h.nodup⟩
    obtain ⟨p, hp, rfl⟩ := mem_map.mp hmem
    have hget := h.holds p hp
    rw [hfree] at hget
    cases hget

/-- A standard descriptor is replaced. -/
theorem Private.put (h : Private base own t) {target : ℕ} (htarget : target < 3)
    (slot : Slot (Handle D)) : Private (base.put target slot) own (t.put target slot) where
  hidden := by
    have hnot : target ∉ own.map Prod.fst := by
      intro hmem
      obtain ⟨p, hp, rfl⟩ := mem_map.mp hmem
      exact absurd (h.apart p hp) (by omega)
    rw [Slots.hide_put hnot, h.hidden]
  apart := h.apart
  holds := by
    intro p hp
    have hne : p.1 ≠ target := by
      have := h.apart p hp
      omega
    rw [Slots.get_put_of_ne _ hne]
    exact h.holds p hp
  nodup := h.nodup

end Private

variable {sys : System W} {style : Style} {gate ends : Ends} {count index left : ℕ}
  {previous : Option ℕ} {done : Bool} {base : Handles D limit} {own : List (Own D)} {handle : Handle D}
  {k k' : Descriptors W D limit} {l : Launch W D limit} {r : Except Redirect.Errno Unit}
  {new : List (Stage × Option (Descriptors W D limit))}

/-! ### Making a pipe -/

/-- What holds of an answer, or behind a refusal. -/
def Answers {α : Type} (r : Except Redirect.Errno α) (answered : α → Prop) (refused : Prop) : Prop :=
  match r with
  | .ok a => answered a
  | .error _ => refused

/-- An end that was just put into a free slot of `t` is moved up or marked. -/
theorem secureEnd_spec {t : Handles D limit} {fd : ℕ} {r : Except Redirect.Errno ℕ}
    (ht : k.table = t.put fd ⟨handle, false⟩) (hfree : t.get fd = none) (hlt : fd < limit)
    (h : secureEnd fd k = (r, k')) :
    Answers r (fun fd' => 3 ≤ fd' ∧ fd' < limit ∧ t.get fd' = none ∧ k'.table = t.put fd' ⟨handle, true⟩)
      (k'.table = k.table) := by
  have hget : k.table.get fd = some ⟨handle, false⟩ := by
    rw [ht]
    exact Slots.get_put_self hlt _
  unfold secureEnd at h
  by_cases hlow : fd < 3
  · rw [if_pos hlow] at h
    simp only [Kernel.duplicateFrom, hget] at h
    by_cases hlimit : limit ≤ 3
    · rw [if_pos hlimit] at h
      cases h
      rfl
    · rw [if_neg hlimit] at h
      cases hmoved : k.table.firstFree 3 with
      | none =>
        rw [hmoved] at h
        cases h
        rfl
      | some moved =>
        rw [hmoved] at h
        cases h
        obtain ⟨hle, hmax, hnone, -⟩ := Slots.firstFree_eq_some hmoved
        have hne : fd ≠ moved := by omega
        refine ⟨hle, hmax, ?_, ?_⟩
        · rw [ht, Slots.get_put_of_ne _ hne.symm] at hnone
          exact hnone
        · show (k.table.put moved ⟨handle, true⟩).clear fd = _
          rw [Slots.clear_put_comm _ hne, ht, Slots.clear_put hfree]
  · rw [if_neg hlow] at h
    simp only [Kernel.setDescriptorFlags, hget] at h
    cases h
    refine ⟨by omega, hlt, hfree, ?_⟩
    rw [ht, Slots.put_put]

/-- The two numbers of a pipe. -/
theorem makePipe_spec {reader writer : Handle D} {r : Except Redirect.Errno (ℕ × ℕ)}
    (h : makePipe sys reader writer k = (r, k')) :
    Answers r (fun fds => fds.1 < limit ∧ fds.2 < limit ∧ fds.1 ≠ fds.2 ∧ k.table.get fds.1 = none ∧
      k.table.get fds.2 = none ∧
      k'.table = (k.table.put fds.1 ⟨reader, false⟩).put fds.2 ⟨writer, false⟩) (k'.table = k.table) := by
  unfold makePipe at h
  split at h
  · cases h
    rfl
  · cases hfirst : k.table.firstFree 0 with
    | none =>
      rw [hfirst] at h
      cases h
      rfl
    | some fd =>
      rw [hfirst] at h
      dsimp only at h
      obtain ⟨-, hlt, hfree, -⟩ := Slots.firstFree_eq_some hfirst
      cases hsecond : (k.table.put fd ⟨reader, false⟩).firstFree 0 with
      | none =>
        rw [hsecond] at h
        cases h
        rfl
      | some fd' =>
        rw [hsecond] at h
        cases h
        obtain ⟨-, hlt', hfree', -⟩ := Slots.firstFree_eq_some hsecond
        have hne : fd' ≠ fd := by
          rintro rfl
          rw [Slots.get_put_self hlt] at hfree'
          cases hfree'
        rw [Slots.get_put_of_ne _ hne] at hfree'
        exact ⟨hlt, hlt', hne.symm, hfree, hfree', rfl⟩

/-- A pipe takes two private descriptors, or leaves the table as it was. -/
theorem pipelinePipe_spec {reader writer : Handle D} {r : Except Redirect.Errno (ℕ × ℕ)}
    (hk : Private base own k.table) (h : pipelinePipe sys reader writer k = (r, k')) :
    Answers r (fun fds => Private base ((fds.2, writer) :: (fds.1, reader) :: own) k'.table)
      (k'.table = k.table) := by
  unfold pipelinePipe at h
  split at h
  · next hmade =>
    cases h
    exact makePipe_spec hmade
  · next fd fd' k₁ hmade =>
    obtain ⟨hlt, hlt', hne, hfree, hfree', htable⟩ := makePipe_spec hmade
    -- the read end is secured first, beside the write end
    have hbeside : k₁.table = (k.table.put fd' ⟨writer, false⟩).put fd ⟨reader, false⟩ := by
      rw [htable, Slots.put_comm _ hne]
    have hfreeR : (k.table.put fd' ⟨writer, false⟩).get fd = none := by
      rw [Slots.get_put_of_ne _ hne, hfree]
    split at h
    · next hsecured =>
      cases h
      have hkept : _ = _ := secureEnd_spec hbeside hfreeR hlt hsecured
      show (Slots.clear _ fd).clear fd' = _
      rw [hkept, hbeside, Slots.clear_put hfreeR, Slots.clear_put hfree']
    · next fd₁ k₂ hsecured =>
      obtain ⟨hle₁, hlt₁, hfree₁, htable₁⟩ := secureEnd_spec hbeside hfreeR hlt hsecured
      have hne₁ : fd₁ ≠ fd' := by
        rintro rfl
        rw [Slots.get_put_self hlt'] at hfree₁
        cases hfree₁
      rw [Slots.get_put_of_ne _ hne₁] at hfree₁
      have hbeside' : k₂.table = (k.table.put fd₁ ⟨reader, true⟩).put fd' ⟨writer, false⟩ := by
        rw [htable₁, Slots.put_comm _ hne₁.symm]
      have hfreeW : (k.table.put fd₁ ⟨reader, true⟩).get fd' = none := by
        rw [Slots.get_put_of_ne _ hne₁.symm, hfree']
      split at h
      · next hsecured' =>
        cases h
        have hkept : _ = _ := secureEnd_spec hbeside' hfreeW hlt' hsecured'
        show (Slots.clear _ fd₁).clear fd' = _
        rw [hkept, htable₁, Slots.put_comm _ hne₁.symm, Slots.clear_put_comm _ hne₁, Slots.clear_put hfree₁,
          Slots.clear_put hfree']
      · next hsecured' =>
        cases h
        obtain ⟨hle₂, hlt₂, hfree₂, htable₂⟩ := secureEnd_spec hbeside' hfreeW hlt' hsecured'
        show Private _ _ _
        rw [htable₂]
        exact (hk.fill hfree₁ hle₁ hlt₁).fill hfree₂ hle₂ hlt₂

/-! ### The table of a stage -/

/-- What the child of a stage should run its command with, over the table of the shell. -/
def stageTable (style : Style) (count index : ℕ) (base : Handles D limit) : Handles D limit :=
  let input :=
    if index ≠ 0 then base.put 0 ⟨.reader (index - 1), false⟩
    else if style.background then base.put 0 ⟨.null, false⟩
    else base
  if index + 1 = count then input else input.put 1 ⟨.writer index, false⟩

/-- What a child gives up is off the standard descriptors, and the terminal is open. -/
structure Style.Fits (style : Style) (base : Handles D limit) : Prop where
  apart : ∀ fd ∈ style.dropped, 3 ≤ fd
  opened : ∀ fd ∈ style.terminal, base.get fd ≠ none

/-- What is given up is none of the business of a stage. -/
theorem stageTable_hide {fds : List ℕ} (h : ∀ fd ∈ fds, 3 ≤ fd) :
    (stageTable style count index base).hide fds = stageTable style count index (base.hide fds) := by
  have hput : ∀ n, n < 3 → ∀ (t : Handles D limit) slot,
      (t.put n slot).hide fds = (t.hide fds).put n slot := fun n hn t slot =>
    Slots.hide_put (fun hmem => absurd (h n hmem) (by omega)) t slot
  have hinput : ∀ t : Handles D limit, (if index + 1 = count then t else
      t.put 1 ⟨.writer index, false⟩).hide fds =
        if index + 1 = count then t.hide fds else (t.hide fds).put 1 ⟨.writer index, false⟩ := by
    intro t
    split
    · rfl
    · exact hput 1 (by omega) _ _
  rw [stageTable, stageTable, hinput]
  by_cases hindex : index = 0
  · cases style.background <;> simp [hindex, hput 0]
  · simp [hindex, hput 0]

/-- The backups are closed one after another. -/
theorem foldl_closeDescriptor (fds : List ℕ) (k : Descriptors W D limit) :
    (fds.foldl Kernel.closeDescriptor k).table = k.table.hide fds := by
  induction fds generalizing k with
  | nil => exact (Slots.hide_nil _).symm
  | cons fd fds ih => exact (ih _).trans (Slots.hide_clear_cons fd fds k.table)

/-- The private descriptor a C variable holds, unless it is `-1`. -/
def ownOf (fd : Option ℕ) (handle : Handle D) : List (Own D) := (fd.map fun fd => (fd, handle)).toList

/-- The private descriptors of a launch about to fork, in the order a child closes them. -/
def launchOwn (gate : Ends) (index : ℕ) (previous : Option ℕ) (ends : Ends) : List (Own D) :=
  ownOf (gate.map Prod.snd) .gateWriter ++ (ownOf (gate.map Prod.fst) .gateReader ++
    (ownOf previous (.reader (index - 1)) ++ (ownOf (ends.map Prod.fst) (.reader index) ++
      ownOf (ends.map Prod.snd) (.writer index))))

theorem pipeClose_private {fd : Option ℕ} (h : Private base (ownOf fd handle ++ own) k.table) :
    Private base own (pipeClose fd k).table := by
  cases fd with
  | none => exact h
  | some fd => exact h.close

variable {terminal : Option ℕ} {α : Type}

/-- The terminal is closed beside the private descriptors. -/
theorem pipeClose_terminal (h : Private base own k.table)
    (hopen : ∀ fd ∈ terminal, base.get fd ≠ none) :
    Private (base.hide terminal.toList) own (pipeClose terminal k).table := by
  cases terminal with
  | none =>
    rw [Option.toList_none, Slots.hide_nil]
    exact h
  | some fd =>
    rw [Option.toList_some, ← Slots.hide_clear_cons, Slots.hide_nil]
    exact h.drop (hopen fd rfl)

/-- A standard descriptor is connected, or the child exits. -/
theorem pipelineConnect_spec {source : Option ℕ} {target : ℕ} (h : Private base own k.table)
    (hsource : ∀ fd ∈ source, (fd, handle) ∈ own) (htarget : target < 3)
    (hk : pipelineConnect source target k = some k') :
    Private (if source.isSome then base.put target ⟨handle, false⟩ else base) own k'.table := by
  cases source with
  | none =>
    cases hk
    exact h
  | some fd =>
    have hmem := hsource fd rfl
    have hne : fd ≠ target := by
      have hle := h.apart _ hmem
      dsimp only at hle
      omega
    have hget := h.holds _ hmem
    dsimp only at hget
    simp only [pipelineConnect, Kernel.duplicateTo, hget] at hk
    by_cases hlimit : limit ≤ target
    · rw [if_pos hlimit] at hk
      cases hk
    · rw [if_neg hlimit, if_neg hne] at hk
      cases hk
      exact h.put htarget _

/-- The input of a stage in the background is the null device. -/
theorem backgroundSetup_spec {redirectInput : Bool} (h : Private base own k.table)
    (hk : backgroundSetup sys redirectInput k = some k') :
    Private (if redirectInput then base.put 0 ⟨.null, false⟩ else base) own k'.table := by
  cases redirectInput with
  | false =>
    cases hk
    exact h
  | true =>
    suffices htable : k'.table = k.table.put 0 ⟨.null, false⟩ by
      rw [htable]
      exact h.put (by decide) _
    simp only [backgroundSetup, if_true, Kernel.openWith] at hk
    cases hfirst : k.table.firstFree 0 with
    | none =>
      rw [hfirst] at hk
      cases hk
    | some fd =>
      rw [hfirst] at hk
      obtain ⟨-, hlt, hfree, -⟩ := Slots.firstFree_eq_some hfirst
      have hlimit : ¬limit ≤ 0 := by omega
      dsimp only at hk
      rcases hopened : sys.openNull k.world with ⟨_ | _, world⟩
      · rw [hopened] at hk
        cases hk
      · rw [hopened] at hk
        simp only [pipelineConnect, Kernel.duplicateTo, Slots.get_put_self hlt, if_neg hlimit] at hk
        by_cases hzero : fd = 0
        · rw [if_pos hzero] at hk
          simp only [Option.map_some, Option.some.injEq, hzero, ne_eq, not_true, if_false] at hk
          rw [← hk]
        · rw [if_neg hzero] at hk
          simp only [Option.map_some, Option.some.injEq, ne_eq, hzero, not_false_eq_true, if_true] at hk
          rw [← hk]
          show ((k.table.put fd _).put 0 _).clear fd = _
          rw [Slots.clear_put_comm _ hzero, Slots.clear_put hfree]

/-- What a stage starts with. -/
theorem stageChild_spec (h : Private base (launchOwn gate index previous ends) k.table)
    (hfits : style.Fits base) (hprevious : previous.isSome = (index != 0))
    (hends : ends.isSome = (index + 1 != count))
    (hk : stageChild sys style gate index previous ends k = some k') :
    k'.table = stageTable style count index (base.hide style.dropped) := by
  have hungated := pipeClose_private (pipeClose_terminal (pipeClose_private h) hfits.opened)
  unfold stageChild at hk
  dsimp only at hk
  generalize pipeClose (gate.map Prod.fst) (pipeClose style.terminal
    (pipeClose (gate.map Prod.snd) k)) = k₁ at hk hungated
  -- the backups are closed last, over what the terminal leaves
  have hsplit : base.hide style.dropped = (base.hide style.terminal.toList).hide style.backups := by
    unfold Style.dropped
    ext1
    funext n
    simp only [Slots.get_hide, mem_append]
    by_cases hn : n ∈ style.backups <;> simp [hn]
  rw [hsplit, ← stageTable_hide fun fd hfd => hfits.apart fd (mem_append_right _ hfd)]
  generalize base.hide style.terminal.toList = base at hungated
  rw [Option.bind_eq_bind, Option.bind_eq_some_iff] at hk
  obtain ⟨k₂, hsetup, hk⟩ := hk
  have hinput : Private (if style.background && index == 0 then base.put 0 ⟨.null, false⟩ else base)
      (ownOf previous (.reader (index - 1)) ++ (ownOf (ends.map Prod.fst) (.reader index) ++
        ownOf (ends.map Prod.snd) (.writer index))) k₂.table := by
    cases hbackground : style.background with
    | false =>
      rw [hbackground] at hsetup
      cases hsetup
      exact hungated
    | true =>
      rw [hbackground] at hsetup
      exact backgroundSetup_spec hungated hsetup
  rw [Option.bind_eq_some_iff] at hk
  obtain ⟨k₃, hconnect, hk⟩ := hk
  rw [Option.bind_eq_some_iff] at hk
  obtain ⟨k₄, hconnect', hk⟩ := hk
  cases hk
  have hread := @pipelineConnect_spec _ _ _ _ _ (.reader (index - 1)) _ _ _ _ hinput
    (by intro fd hfd; cases hfd; exact mem_cons_self) (by decide) hconnect
  have hwritten := @pipelineConnect_spec _ _ _ _ _ (.writer index) _ _ _ _ hread
    (by intro fd hfd; simp [ownOf, Option.mem_def.mp hfd]) (by decide) hconnect'
  have hclosed := pipeClose_private (pipeClose_private hwritten)
  rw [← append_nil (ownOf (ends.map Prod.snd) (.writer index))] at hclosed
  have hbare := (pipeClose_private hclosed).eq
  rw [foldl_closeDescriptor]
  congr 1
  unfold closeEnds
  rw [hbare]
  unfold stageTable
  have hends' : (ends.map Prod.snd).isSome = (index + 1 != count) := by rw [Option.isSome_map, hends]
  rw [hprevious, hends']
  by_cases hindex : index = 0
  · simp [hindex]
  · by_cases hlast : index + 1 = count
    · simp [hindex, hlast]
    · simp [hindex, hlast]

/-! ### Launching -/

/-- The ends of the barrier, in the order a child closes them. -/
def gateOwn (gate : Ends) : List (Own D) :=
  ownOf (gate.map Prod.snd) .gateWriter ++ ownOf (gate.map Prod.fst) .gateReader

theorem launchOwn_perm (gate : Ends) (index : ℕ) (previous : Option ℕ) (ends : Ends) :
    (ownOf (ends.map Prod.snd) (.writer index) ++ (ownOf (ends.map Prod.fst) (.reader index) ++
      (ownOf previous (.reader (index - 1)) ++ gateOwn gate)) : List (Own D)).Perm
      (launchOwn gate index previous ends) := by
  classical
  refine perm_iff_count.mpr fun p => ?_
  simp only [launchOwn, gateOwn, count_append]
  omega

/-- The shell's side of what was started. -/
structure Launched (base : Handles D limit) (style : Style) (count index left : ℕ)
    (done : Bool) (new : List (Stage × Option (Descriptors W D limit))) : Prop where
  length : new.length ≤ left
  all : done = true → new.length = left
  fresh : ∀ s ∈ new, s.1.reaped = false
  wired : ∀ j s, new[j]? = some s → ∀ k ∈ s.2, k.table = stageTable style count (index + j) base

/-- The pipe behind a stage joins the private descriptors. -/
theorem stagePipe_spec {r : Except Redirect.Errno Ends}
    (hown : Private base (ownOf previous (.reader (index - 1)) ++ gateOwn gate) k.table)
    (h : stagePipe sys left index k = (r, k')) :
    Answers r (fun ends => ends.isSome = (left != 0) ∧
      Private base (launchOwn gate index previous ends) k'.table) (k'.table = k.table) := by
  unfold stagePipe at h
  by_cases hleft : left = 0
  · rw [if_pos hleft] at h
    cases h
    exact ⟨by simp [hleft], hown.perm (launchOwn_perm gate index previous none)⟩
  · rw [if_neg hleft] at h
    split at h
    · next hpiped =>
      cases h
      exact pipelinePipe_spec hown hpiped
    · next ends _ hpiped =>
      cases h
      have hprivate : Private _ _ _ := pipelinePipe_spec hown hpiped
      exact ⟨by simp [hleft], hprivate.perm (launchOwn_perm gate index previous (some ends))⟩

/-- Closing what a failed launch step holds. -/
theorem closeEnds_private (h : Private base (launchOwn gate index previous ends) k.table) :
    Private base (gateOwn gate) (closeEnds previous ends k).table := by
  have hopen : Private base (ownOf previous (.reader (index - 1)) ++
      (ownOf (ends.map Prod.fst) (.reader index) ++ (ownOf (ends.map Prod.snd) (.writer index) ++
        gateOwn gate))) k.table := by
    classical
    refine h.perm (perm_iff_count.mpr fun p => ?_)
    simp only [launchOwn, gateOwn, count_append]
    omega
  exact pipeClose_private (pipeClose_private (pipeClose_private hopen))

/-- What the shell keeps for the next stage. -/
theorem keepEnd_private (h : Private base (launchOwn gate index previous ends) k.table) :
    Private base (ownOf (ends.map Prod.fst) (.reader index) ++ gateOwn gate)
      (pipeClose (ends.map Prod.snd) (pipeClose previous k)).table := by
  have hopen : Private base (ownOf previous (.reader (index - 1)) ++
      (ownOf (ends.map Prod.snd) (.writer index) ++ (ownOf (ends.map Prod.fst) (.reader index) ++
        gateOwn gate))) k.table := by
    classical
    refine h.perm (perm_iff_count.mpr fun p => ?_)
    simp only [launchOwn, gateOwn, count_append]
    omega
  exact pipeClose_private (pipeClose_private hopen)

theorem Launched.none (left : ℕ) :
    Launched (W := W) base style count index left false [] where
  length := Nat.zero_le _
  all := fun h => by cases h
  fresh := fun _ hs => by cases hs
  wired := fun _ _ hs => by cases hs

/-- One more stage in front. -/
theorem Launched.cons {stage : Stage} {child : Option (Descriptors W D limit)}
    (hfresh : stage.reaped = false)
    (hchild : ∀ k ∈ child, k.table = stageTable style count index base)
    (h : Launched base style count (index + 1) left done new) :
    Launched base style count index (left + 1) done ((stage, child) :: new) where
  length := Nat.succ_le_succ h.length
  all := fun hdone => congrArg Nat.succ (h.all hdone)
  fresh := by
    intro s hs
    rcases mem_cons.mp hs with rfl | hs
    · exact hfresh
    · exact h.fresh s hs
  wired := by
    intro j s hs k hk
    cases j with
    | zero =>
      cases hs
      exact hchild k hk
    | succ j =>
      rw [← Nat.succ_add_eq_add_succ]
      exact h.wired j s hs k hk

theorem launchStages_spec {l' : Launch W D limit} (hfits : style.Fits base) :
    ∀ {left index : ℕ} {previous : Option ℕ} {l : Launch W D limit}, index + left = count →
      previous.isSome = (index != 0 && left != 0) →
      Private base (ownOf previous (.reader (index - 1)) ++ gateOwn gate) l.kernel.table →
      launchStages sys style gate left index previous l = (r, l') →
      Private base (gateOwn gate) l'.kernel.table ∧ ∃ new, l'.stages = l.stages ++ new ∧
        Launched (base.hide style.dropped) style count index left r.isOk new := by
  intro left
  induction left with
  | zero =>
    intro index previous l hcount hprevious hown h
    cases h
    cases previous with
    | some fd => simp at hprevious
    | none =>
      exact ⟨hown, [], (append_nil _).symm, Nat.le_refl 0, fun _ => rfl,
        (fun _ hs => by cases hs), fun _ _ hs => by cases hs⟩
  | succ left ih =>
    intro index previous l hcount hprevious hown h
    unfold launchStages at h
    split at h
    · -- no pipe: the end before the stage is closed
      next k hpiped =>
      cases h
      have htable : k.table = _ := stagePipe_spec hown hpiped
      rw [← htable] at hown
      exact ⟨pipeClose_private hown, [], (append_nil _).symm, .none _⟩
    · next ends k hpiped =>
      obtain ⟨hsome, hheld⟩ := stagePipe_spec hown hpiped
      split at h
      · cases h
        exact ⟨closeEnds_private hheld, [], (append_nil _).symm, .none _⟩
      · next pid world hfork =>
        dsimp only at h
        -- the child has copied the table with all that is private in it
        have hchild : ∀ k' ∈ stageChild sys style gate index previous ends { k with world },
            k'.table = stageTable style count index (base.hide style.dropped) := by
          intro k' hk'
          have hprevious' : previous.isSome = (index != 0) := by rw [hprevious]; simp
          have hends : ends.isSome = (index + 1 != count) := by
            rw [hsome, Bool.eq_iff_iff, bne_iff_ne, bne_iff_ne]
            omega
          exact stageChild_spec (k := { k with world }) hheld hfits hprevious' hends hk'
        generalize stageChild sys style gate index previous ends { k with world } = child at h hchild
        split at h
        · cases h
          refine ⟨closeEnds_private hheld, [({ pid }, child)], rfl, ?_⟩
          exact .cons rfl hchild (.none _)
        · next world' hgrouped =>
          obtain ⟨hfinal, new, hstages, hnew⟩ := ih (by omega)
            (by rw [Option.isSome_map, hsome]; simp)
            (keepEnd_private (k := { k with world := world' }) hheld) h
          refine ⟨hfinal, ({ pid }, child) :: new, ?_, .cons rfl hchild hnew⟩
          rw [hstages, append_assoc]
          rfl

/-! ### Waiting and cancelling -/

theorem waitStages_children (sys : System W) (stages : List (Stage × α)) (w : W) :
    (waitStages sys stages w).2.1.map Prod.snd = stages.map Prod.snd := by
  induction stages generalizing w with
  | nil => rfl
  | cons s rest ih =>
    obtain ⟨stage, child⟩ := s
    rw [waitStages]
    rcases stageWait sys stage w with ⟨_ | stage', w'⟩
    · rfl
    · exact congrArg (child :: ·) (ih w')

/-- When every wait succeeds, every stage is reaped. -/
theorem waitStages_reaped (sys : System W) (stages : List (Stage × α)) (w : W)
    (h : (waitStages sys stages w).1 = true) :
    ∀ s ∈ (waitStages sys stages w).2.1, s.1.reaped = true := by
  induction stages generalizing w with
  | nil => exact fun _ hs => by cases hs
  | cons s rest ih =>
    obtain ⟨stage, child⟩ := s
    rw [waitStages] at h ⊢
    rcases hwait : stageWait sys stage w with ⟨_ | stage', w'⟩
    · rw [hwait] at h
      cases h
    · rw [hwait] at h
      intro s hs
      rcases mem_cons.mp hs with rfl | hs
      · unfold stageWait at hwait
        split at hwait <;> cases hwait
        rfl
      · exact ih w' h s hs

theorem reapStages_children (sys : System W) (stages : List (Stage × α)) (w : W) :
    (reapStages sys stages w).1.map Prod.snd = stages.map Prod.snd := by
  induction stages generalizing w with
  | nil => rfl
  | cons s rest ih =>
    obtain ⟨stage, child⟩ := s
    exact congrArg (child :: ·) (ih _)

theorem stageWait_reaped (hsys : ∀ w pid, (sys.waitpid w pid).1.isOk = true) (stage : Stage) (w : W) :
    ∃ stage', (stageWait sys stage w).1 = some stage' ∧ stage'.reaped = true := by
  have hok := hsys w stage.pid
  unfold stageWait
  rcases hwait : sys.waitpid w stage.pid with ⟨_ | ended, w'⟩
  · rw [hwait] at hok
    cases hok
  · exact ⟨stage.wait ended, rfl, rfl⟩

theorem reapStages_reaped (hsys : ∀ w pid, (sys.waitpid w pid).1.isOk = true)
    (stages : List (Stage × α)) (w : W) :
    ∀ s ∈ (reapStages sys stages w).1, s.1.reaped = true := by
  induction stages generalizing w with
  | nil => exact fun _ hs => by cases hs
  | cons s rest ih =>
    obtain ⟨stage, child⟩ := s
    intro s hs
    rw [reapStages] at hs
    rcases mem_cons.mp hs with rfl | hs
    · by_cases hreaped : stage.reaped = true
      · rw [if_pos hreaped]
        exact hreaped
      · rw [if_neg hreaped]
        obtain ⟨stage', hstage, hdone⟩ := stageWait_reaped hsys stage w
        rw [hstage]
        exact hdone
    · exact ih _ s hs

/-- The end of a launch leaves the descriptors alone. -/
theorem finishStages_spec (sys : System W) (r : Except Redirect.Errno Unit × Launch W D limit) :
    (finishStages sys r).2.kernel.table = r.2.kernel.table ∧
      (finishStages sys r).2.stages.map Prod.snd = r.2.stages.map Prod.snd := by
  rcases r with ⟨_ | _, l⟩
  · exact ⟨rfl, reapStages_children sys _ _⟩
  · have hchildren := waitStages_children sys l.stages l.kernel.world
    rw [finishStages]
    rcases hwait : waitStages sys l.stages l.kernel.world with ⟨_ | _, stages, world⟩
    · rw [hwait] at hchildren
      exact ⟨rfl, (reapStages_children sys _ _).trans hchildren⟩
    · rw [hwait] at hchildren
      exact ⟨rfl, hchildren⟩

/-- Nothing is left unreaped, unless a wait fails. -/
theorem finishStages_reaped (sys : System W) (r : Except Redirect.Errno Unit × Launch W D limit)
    (h : (finishStages sys r).1 = true ∨ ∀ w pid, (sys.waitpid w pid).1.isOk = true) :
    ∀ s ∈ (finishStages sys r).2.stages, s.1.reaped = true := by
  rcases r with ⟨_ | _, l⟩
  · rcases h with h | hsys
    · cases h
    · exact reapStages_reaped hsys _ _
  · have hwaited := waitStages_reaped sys l.stages l.kernel.world
    rw [finishStages] at h ⊢
    rcases hwait : waitStages sys l.stages l.kernel.world with ⟨_ | _, stages, world⟩
    · rw [hwait] at h
      rcases h with h | hsys
      · cases h
      · exact reapStages_reaped hsys _ _
    · rw [hwait] at hwaited
      exact hwaited rfl

theorem finishStages_done {r : Except Redirect.Errno Unit × Launch W D limit}
    (h : (finishStages sys r).1 = true) : r.1.isOk = true := by
  rcases r with ⟨_ | _, l⟩
  · cases h
  · rfl

/-! ### The three callers -/

/-- Whether stage `i` may hold the description under the number `n`. -/
def Handle.MayHold (i n : ℕ) : Handle D → Prop
  | writer q => i = q ∧ n = 1
  | reader q => i = q + 1 ∧ n = 0
  | gateReader => False
  | gateWriter => False
  | file _ => True
  | null => True

/-- A launch of `count` stages from the shell `k`, of which `done` says whether it succeeded. -/
structure Wired (style : Style) (count : ℕ) (k : Kernel W D limit) (done : Bool)
    (l : Launch W D limit) : Prop where
  /-- The shell holds what it held, and no end of a pipe. -/
  shell : l.kernel.table = (before k).table
  few : l.stages.length ≤ count
  all : done = true → l.stages.length = count
  /-- A stage that gets to its command reads the stage before it and writes to the one
  behind it, and lacks what a child gives up. -/
  stages : ∀ i stage (child : Descriptors W D limit), l.stages[i]? = some (stage, some child) →
    child.table = stageTable style count i ((before k).table.hide style.dropped)
  /-- An end of a pipe has one holder, who knows it by one number. -/
  ends : ∀ i stage (child : Descriptors W D limit) n (slot : Slot (Handle D)),
    l.stages[i]? = some (stage, some child) → child.table.get n = some slot → slot.description.MayHold i n

theorem before_get {k : Kernel W D limit} {n : ℕ} {slot : Slot (Handle D)}
    (h : (before k).table.get n = some slot) : ∃ description, slot.description = .file description := by
  simp only [before, Slots.get_map, Option.map_eq_some_iff] at h
  obtain ⟨slot', -, rfl⟩ := h
  exact ⟨_, rfl⟩

theorem get_of_hide {t : Slots limit α} {fds : List ℕ} {n : ℕ} {a : α}
    (h : (t.hide fds).get n = some a) : t.get n = some a := by
  rw [Slots.get_hide] at h
  split at h
  · cases h
  · exact h

theorem get_put_cases {t : Slots limit α} {m n : ℕ} {a b : α} (h : (t.put m a).get n = some b) :
    n = m ∧ b = a ∨ t.get n = some b := by
  by_cases hn : n = m
  · subst hn
    by_cases hlt : n < limit
    · rw [Slots.get_put_self hlt] at h
      exact .inl ⟨rfl, (Option.some.inj h).symm⟩
    · have hclosed := (t.put n a).closed n (not_lt.mp hlt)
      rw [h] at hclosed
      cases hclosed
  · rw [Slots.get_put_of_ne _ hn] at h
    exact .inr h

/-- What a stage can hold. -/
theorem stageTable_get {count index n : ℕ} {slot : Slot (Handle D)}
    (h : (stageTable style count index base).get n = some slot) :
    n = 1 ∧ slot.description = .writer index ∨
    n = 0 ∧ index ≠ 0 ∧ slot.description = .reader (index - 1) ∨
    n = 0 ∧ slot.description = .null ∨ base.get n = some slot := by
  have hinput : ∀ input : Handles D limit,
      (if index + 1 = count then input else input.put 1 ⟨.writer index, false⟩).get n = some slot →
      n = 1 ∧ slot.description = .writer index ∨ input.get n = some slot := by
    intro input hget
    split at hget
    · exact .inr hget
    · rcases get_put_cases hget with ⟨hn, rfl⟩ | hget
      · exact .inl ⟨hn, rfl⟩
      · exact .inr hget
  unfold stageTable at h
  rcases hinput _ h with hwriter | hget
  · exact .inl hwriter
  · right
    split at hget
    · next hindex =>
      rcases get_put_cases hget with ⟨hn, rfl⟩ | hget
      · exact .inl ⟨hn, hindex, rfl⟩
      · exact .inr (.inr hget)
    · split at hget
      · rcases get_put_cases hget with ⟨hn, rfl⟩ | hget
        · exact .inr (.inl ⟨hn, rfl⟩)
        · exact .inr (.inr hget)
      · exact .inr (.inr hget)

theorem Wired.of_launched {k : Kernel W D limit} (hshell : l.kernel.table = (before k).table)
    (hstages : l.stages.map Prod.snd = new.map Prod.snd)
    (hnew : Launched ((before k).table.hide style.dropped) style count 0 count done new) :
    Wired style count k done l := by
  have hlength : l.stages.length = new.length := by
    rw [← length_map (f := Prod.snd), hstages, length_map]
  have hwired : ∀ i stage child, l.stages[i]? = some (stage, some child) →
      child.table = stageTable style count i ((before k).table.hide style.dropped) := by
    intro i stage child hi
    have hchild : (new.map Prod.snd)[i]? = some (some child) := by
      rw [← hstages, getElem?_map, hi]
      rfl
    rw [getElem?_map, Option.map_eq_some_iff] at hchild
    obtain ⟨s, hs, hchild⟩ := hchild
    have htable := hnew.wired i s hs child hchild
    rw [Nat.zero_add] at htable
    exact htable
  refine ⟨hshell, hlength ▸ hnew.length, fun h => hlength.trans (hnew.all h), hwired, ?_⟩
  intro i stage child n slot hi hget
  rw [hwired i stage child hi] at hget
  rcases stageTable_get hget with ⟨hn, hslot⟩ | ⟨hn, hindex, hslot⟩ | ⟨-, hslot⟩ | hget
  · rw [hslot]
    exact ⟨rfl, hn⟩
  · rw [hslot]
    exact ⟨(Nat.succ_pred hindex).symm, hn⟩
  · rw [hslot]
    trivial
  · obtain ⟨description, hslot⟩ := before_get (get_of_hide hget)
    rw [hslot]
    trivial

/-- A launch without a barrier. -/
theorem launchStages_wired (sys : System W) (style : Style) (count : ℕ) (k : Kernel W D limit)
    (hfits : style.Fits (before k).table) :
    ∃ r l new, launchStages sys style none count 0 none ⟨before k, []⟩ = (r, l) ∧
      l.kernel.table = (before k).table ∧ l.stages = new ∧
      Launched ((before k).table.hide style.dropped) style count 0 count r.isOk new := by
  rcases hlaunch : launchStages sys style none count 0 none ⟨before k, []⟩ with ⟨r, l⟩
  obtain ⟨htable, new, hstages, hnew⟩ :=
    launchStages_spec hfits (Nat.zero_add count) rfl (.nil _) hlaunch
  exact ⟨r, l, new, rfl, htable.eq, hstages, hnew⟩

theorem Launched.weaken {done done' : Bool} (h : Launched base style count index left done new)
    (hdone : done' = true → done = true) :
    Launched base style count index left done' new :=
  ⟨h.length, fun h' => h.all (hdone h'), h.fresh, h.wired⟩

theorem finishStages_wired {k : Kernel W D limit} (htable : l.kernel.table = (before k).table)
    (hnew : Launched ((before k).table.hide style.dropped) style count 0 count r.isOk l.stages) :
    Wired style count k (finishStages sys (r, l)).1 (finishStages sys (r, l)).2 := by
  obtain ⟨hkept, hchildren⟩ := finishStages_spec sys (r, l)
  exact .of_launched (hkept.trans htable) hchildren (hnew.weaken finishStages_done)

theorem executePipeline_wired (sys : System W) (inside : Inside W D limit)
    (hcount : 2 ≤ count) {k : Kernel W D limit}
    (hfits : Style.Fits { terminal } (before k).table) :
    Wired { terminal } count k (executePipeline sys inside terminal count k).1
      (executePipeline sys inside terminal count k).2 := by
  obtain ⟨r, l, _, hlaunch, htable, rfl, hnew⟩ := launchStages_wired sys { terminal } count k hfits
  unfold executePipeline
  rw [if_neg (by omega), if_neg (by omega), hlaunch]
  exact finishStages_wired htable hnew

theorem contextPipeline_wired (sys : System W) (inside : Inside W D limit) {backups : List ℕ}
    (asynchronous : Bool) (hcount : 2 ≤ count) {k : Kernel W D limit}
    (hfits : Style.Fits { background := asynchronous, backups } (before k).table) :
    Wired { background := asynchronous, backups } count k
      (contextPipeline sys inside backups asynchronous count k).1
      (contextPipeline sys inside backups asynchronous count k).2 := by
  obtain ⟨r, l, _, hlaunch, htable, rfl, hnew⟩ :=
    launchStages_wired sys { background := asynchronous, backups } count k hfits
  unfold contextPipeline
  rw [if_neg (by omega)]
  dsimp only
  rw [hlaunch]
  rcases r with err | _
  · exact finishStages_wired htable hnew
  · dsimp only
    split
    · exact .of_launched htable rfl hnew
    · exact finishStages_wired htable hnew

theorem contextJob_wired (sys : System W) {backups : List ℕ}
    (asynchronous grouped : Bool) (count : ℕ) {k : Kernel W D limit}
    (hfits : Style.Fits { grouped, background := asynchronous && !grouped, terminal, backups }
      (before k).table) :
    Wired { grouped, background := asynchronous && !grouped, terminal, backups } count k
      (contextJob sys terminal backups asynchronous grouped count k).1
      (contextJob sys terminal backups asynchronous grouped count k).2 := by
  unfold contextJob
  rcases hpiped : pipelinePipe sys .gateReader .gateWriter (before k) with ⟨err | ⟨fd, fd'⟩, k₁⟩
  · have htable : k₁.table = _ := pipelinePipe_spec (.nil _) hpiped
    exact .of_launched htable rfl (.none count)
  · have hgate : Private (before k).table
        (ownOf none (.reader (0 - 1)) ++ gateOwn (some (fd, fd'))) k₁.table :=
      pipelinePipe_spec (.nil _) hpiped
    dsimp only
    rcases hlaunch : launchStages sys
      { grouped, background := asynchronous && !grouped, terminal, backups } (some (fd, fd'))
      count 0 none ⟨k₁, []⟩ with ⟨r, l⟩
    obtain ⟨hheld, new, hstages, hnew⟩ :=
      launchStages_spec hfits (Nat.zero_add count) rfl hgate hlaunch
    rw [nil_append] at hstages
    subst hstages
    -- the read end of the barrier is closed before its write end
    have hreleased : ((l.kernel.table.clear fd).clear fd') = (before k).table :=
      (hheld.perm (List.Perm.swap _ _ _)).close.close.eq
    rcases r with err | _
    · exact .of_launched hreleased rfl (hnew.weaken fun h => by cases h)
    · dsimp only
      split
      · exact .of_launched hreleased rfl (hnew.weaken fun h => by cases h)
      · exact .of_launched hreleased rfl hnew

/-- **Each stage reads the stage before it and writes to the one behind it, nobody else
holds an end of a pipe, and the shell's own table is as it was**, whatever the system
refuses; and a launch that waits leaves no stage unreaped, unless a wait fails.  A stage
lacks the terminal of the jobs and the backups of redirections, which are off the standard
descriptors. -/
theorem pipelines_wired (sys : System W) (inside : Inside W D limit) (terminal : Option ℕ)
    (backups : List ℕ) (asynchronous grouped : Bool) (count : ℕ) (k : Kernel W D limit)
    (hterminal : ∀ fd ∈ terminal, 3 ≤ fd ∧ k.table.get fd ≠ none) (hbackups : ∀ fd ∈ backups, 3 ≤ fd) :
    (2 ≤ count →
      Wired { terminal } count k (executePipeline sys inside terminal count k).1
        (executePipeline sys inside terminal count k).2 ∧
      Wired { background := asynchronous, backups } count k
        (contextPipeline sys inside backups asynchronous count k).1
        (contextPipeline sys inside backups asynchronous count k).2 ∧
      ∀ launched ∈ [executePipeline sys inside terminal count k,
          contextPipeline sys inside backups false count k],
        launched.1 = true ∨ (∀ w pid, (sys.waitpid w pid).1.isOk = true) →
        ∀ s ∈ launched.2.stages, s.1.reaped = true) ∧
    Wired { grouped, background := asynchronous && !grouped, terminal, backups } count k
      (contextJob sys terminal backups asynchronous grouped count k).1
      (contextJob sys terminal backups asynchronous grouped count k).2 := by
  have hopened : ∀ fd ∈ terminal, (before k).table.get fd ≠ none := by
    intro fd hfd
    have hopen := (hterminal fd hfd).2
    simp only [before, Slots.get_map, ne_eq, Option.map_eq_none_iff]
    exact hopen
  have hfits : ∀ (grouped background : Bool) (terminal' : Option ℕ) (backups' : List ℕ),
      (∀ fd ∈ terminal', fd ∈ terminal) → (∀ fd ∈ backups', fd ∈ backups) →
      Style.Fits ⟨grouped, background, terminal', backups'⟩ (before k).table := by
    refine fun _ _ terminal' backups' hsub hsub' => ⟨fun fd hfd => ?_, fun fd hfd => hopened fd (hsub fd hfd)⟩
    rcases mem_append.mp hfd with hfd | hfd
    · exact (hterminal fd (hsub fd (Option.mem_toList.mp hfd))).1
    · exact hbackups fd (hsub' fd hfd)
  refine ⟨fun hcount => ⟨executePipeline_wired sys inside hcount (hfits _ _ _ _ (by simp) (by simp)),
    contextPipeline_wired sys inside asynchronous hcount (hfits _ _ _ _ (by simp) (by simp)), ?_⟩,
    contextJob_wired sys asynchronous grouped count (hfits _ _ _ _ (by simp) (by simp))⟩
  intro launched hlaunched
  rcases mem_pair.mp hlaunched with rfl | rfl
  · unfold executePipeline
    rw [if_neg (by omega), if_neg (by omega)]
    exact finishStages_reaped sys _
  · unfold contextPipeline
    rw [if_neg (by omega)]
    dsimp only
    rcases launchStages sys { background := false, backups } none count 0 none ⟨before k, []⟩ with
      ⟨err | _, l⟩
    · exact finishStages_reaped sys (.error err, l)
    · exact finishStages_reaped sys (.ok (), l)

/-- A system that refuses nothing. -/
def willing : System Unit where
  pipe w := (.ok (), w)
  fork w := (.ok 100, w)
  setpgid w := (.ok (), w)
  giveTerminal w := (.ok (), w)
  openNull w := (.ok (), w)
  kill w _ := w
  waitpid w _ := (.ok (.exited 0), w)

/-- A shell with a terminal on the standard descriptors and, for its jobs, on 10. -/
def onTerminal : Kernel Unit Unit 16 where
  table := (((Slots.empty.put 0 ⟨(), false⟩).put 1 ⟨(), false⟩).put 2 ⟨(), false⟩).put 10 ⟨(), true⟩
  world := ()
  bounded := by decide

/-- Two stages, which do not keep the terminal of the jobs. -/
theorem pipelines_wired_two :
    Wired { terminal := some 10 } 2 onTerminal
      (executePipeline willing (fun k => (true, ⟨before k, []⟩)) (some 10) 2 onTerminal).1
      (executePipeline willing (fun k => (true, ⟨before k, []⟩)) (some 10) 2 onTerminal).2 :=
  ((pipelines_wired willing (fun k => (true, ⟨before k, []⟩)) (some 10) [11] false true 2 onTerminal
    (by rintro _ ⟨⟩; exact ⟨by decide, by decide⟩) (by decide)).1 le_rfl).1

end Launch

end Jobs
end CShell
