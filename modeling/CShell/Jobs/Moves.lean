import CShell.Jobs.Model
import CShell.Lib.Aligned
import Mathlib.Logic.Relation
import Mathlib.Tactic

/-!
# What a call does to the table

Every function of `jobs.c` changes the table in a few ways only.  In place: a line is
written, processes change as `waitpid` and `kill` tell, a completed job is reported.
Otherwise: a job is moved to the front, freed or registered, or the executor enters a
process into a job it is launching.  The invariants of the table are proved about
these steps, and each function is proved to be a sequence of them.

* `Process.Evolves`, `Job.Evolves` — a collected process keeps its status, and a
  completed job is not marked as changed again.
* `Turn`, `Turns` — the steps in place.  `lapses` is whether the completion of a job may
  be written without being noted.
* `Move`, `Moves` — all steps; `leaves` says which records may be freed.
* `Manager.poll_turns`, …, `Manager.perform_moves` — one lemma for each function.
-/

namespace CShell

namespace Jobs

/-! ### Processes and jobs -/

/-- What happens to a process: a collected one is done with. -/
structure Process.Evolves (p q : Process) : Prop where
  pid : q.pid = p.pid
  done : p.done = true → q.done = true ∧ q.status = p.status
  apart : (p.done = true → p.stopped = false) → q.done = true → q.stopped = false

namespace Process

theorem Evolves.refl (p : Process) : Evolves p p := ⟨rfl, fun h => ⟨h, rfl⟩, fun h => h⟩

theorem Evolves.live {p q : Process} (h : Evolves p q) (hp : p.live = false) : q.live = false := by
  unfold Process.live at hp ⊢
  rw [h.pid]
  cases hd : p.done with
  | true => simp [(h.done hd).1]
  | false =>
    rw [hd] at hp
    have hpid : decide (0 < p.pid) = false := by simpa using hp
    rw [hpid, Bool.false_and]

/-- A process that is not collected may take any status, as long as it is not both done
and stopped. -/
theorem Evolves.of_open {p q : Process} (hpid : q.pid = p.pid) (hp : p.done = false)
    (hq : q.done = true → q.stopped = false) : Evolves p q := by
  refine ⟨hpid, ?_, fun _ => hq⟩
  intro h
  rw [hp] at h
  cases h

theorem Evolves.unstopped (p : Process) : Evolves p { p with stopped := false } :=
  ⟨rfl, fun h => ⟨h, rfl⟩, fun _ _ => rfl⟩

theorem not_done_of_live {p : Process} (h : p.live = true) : p.done = false := by
  unfold live at h
  simpa using (Bool.and_eq_true_iff.mp h).2

/-- One status: a process is never both done and stopped. -/
theorem take_apart (p : Process) (status : WaitStatus) :
    (p.take status).done = true → (p.take status).stopped = false := by
  unfold take
  cases status <;> simp [WaitStatus.ifContinued, WaitStatus.ifStopped, WaitStatus.ifExited,
    WaitStatus.ifSignaled]

theorem take_pid (p : Process) (status : WaitStatus) : (p.take status).pid = p.pid := by
  unfold take
  split <;> rfl

/-- The statuses of one child, one after the other. -/
theorem poll_evolves (failed : Bool) (statuses : List WaitStatus) {p : Process}
    (hp : p.done = false) : Evolves p (p.poll failed statuses).1 := by
  induction statuses generalizing p with
  | nil => exact .refl p
  | cons status statuses ih =>
    have hpid := take_pid p status
    unfold poll
    cases hd : (p.take status).done with
    | true =>
      rw [if_pos rfl]
      exact .of_open hpid hp (take_apart p status)
    | false =>
      rw [if_neg Bool.false_ne_true]
      have h := ih hd
      refine .of_open (h.pid.trans hpid) hp (h.apart ?_)
      intro hdone
      rw [hd] at hdone
      cases hdone

end Process

/-- What happens to a job: a completed one stays so, and its end is news only once. -/
structure Job.Evolves (j k : Job) : Prop where
  id : k.id = j.id
  text : k.text = j.text
  processes : List.Forall₂ Process.Evolves j.processes k.processes
  changed : j.complete = true → k.changed = true → j.changed = true
  kept : j.reported = true → k.reported = true
  reported : k.reported = true → j.reported = true ∨ k.complete = true ∧ k.changed = false

namespace Job

theorem complete_iff {job : Job} : job.complete = true ↔ ∀ p ∈ job.processes, p.live = false := by
  unfold complete
  simp

/-- A stopped job has a process that was not collected. -/
theorem complete_of_stopped {job : Job} (h : job.stopped = true) : job.complete = false := by
  unfold stopped at h
  have hany := (Bool.and_eq_true_iff.mp h).2
  obtain ⟨p, hp, hlive⟩ := List.any_eq_true.mp hany
  rw [Bool.eq_false_iff]
  intro hc
  rw [complete_iff.mp hc p hp] at hlive
  cases hlive

theorem complete_of_forall₂ {j k : Job} (h : List.Forall₂ Process.Evolves j.processes k.processes)
    (hj : j.complete = true) : k.complete = true := by
  rw [complete_iff] at hj ⊢
  intro q hq
  obtain ⟨p, hp, hpq⟩ := Aligned.exists_left h hq
  exact hpq.live (hj p hp)

theorem Evolves.complete {j k : Job} (h : Evolves j k) (hj : j.complete = true) :
    k.complete = true :=
  complete_of_forall₂ h.processes hj

theorem Evolves.refl (j : Job) : Evolves j j :=
  ⟨rfl, rfl, Aligned.refl .refl _, fun _ h => h, fun h => h, .inl⟩

/-- A change of the processes alone. -/
theorem Evolves.of_processes {j : Job} {ps : List Process}
    (h : List.Forall₂ Process.Evolves j.processes ps) : Evolves j { j with processes := ps } :=
  ⟨rfl, rfl, h, fun _ h => h, fun h => h, .inl⟩

/-- `job->changed` is set when a job is not what it was. -/
theorem Evolves.noting {j k : Job} (h : Evolves j k) (hreported : k.reported = j.reported) :
    Evolves j (j.noting k) := by
  unfold Job.noting
  split
  · rename_i hnew
    refine ⟨h.id, h.text, h.processes, ?_, fun hj => hreported.trans hj,
      fun hk => .inl (hreported ▸ hk)⟩
    -- a completed job is neither complete anew nor stopped anew
    intro hj _
    have hk := h.complete hj
    have hstopped : ∀ job : Job, job.complete = true → job.stopped = false := by
      intro job hc
      rw [Bool.eq_false_iff]
      intro hs
      rw [complete_of_stopped hs] at hc
      cases hc
    rw [hj, hk, hstopped j hj, hstopped k hk] at hnew
    simp at hnew
  · exact h

theorem Evolves.told (j : Job) : Evolves j j.told := by
  refine ⟨rfl, rfl, Aligned.refl .refl _, ?_, ?_, ?_⟩
  · intro _ h
    cases h
  · intro h
    unfold Job.told
    simp [h]
  · intro h
    unfold Job.told at h
    rcases Bool.or_eq_true_iff.mp h with h | h
    · exact .inl h
    · exact .inr ⟨h, rfl⟩

theorem Evolves.resumed (j : Job) : Evolves j j.resumed := by
  refine ⟨rfl, rfl, ?_, ?_, fun h => h, .inl⟩
  · unfold Job.resumed
    rw [List.forall₂_map_right_iff]
    exact List.forall₂_same.mpr fun p _ => .unstopped p
  · intro _ h
    cases h

end Job

/-! ### Steps -/

/-- A step that leaves every job at its place. -/
inductive Turn (lapses : Prop) : Table → Table → Prop
  | said (t : Table) (stream : Stream) (line : Line) (h : ∀ id, line.completionOf id = false) :
      Turn lapses t (t.said stream line)
  | evolved (t : Table) {jobs : List Job} (h : List.Forall₂ Job.Evolves t.jobs jobs) :
      Turn lapses t { t with jobs }
  | told (t : Table) {i : ℕ} (stream : Stream) (line : Line) (hi : i < t.jobs.length)
      (hc : (t.job i).complete = true)
      (hnews : (t.job i).reported = false ∨ (t.job i).changed = true)
      (h : ∀ id, line.completionOf id = true → id = (t.job i).id) :
      Turn lapses t ((t.modify i Job.told).said stream line)
  | lapsed (t : Table) (stream : Stream) (line : Line) (h : lapses) :
      Turn lapses t (t.said stream line)

/-- Steps in place, one after the other. -/
abbrev Turns (lapses : Prop) : Table → Table → Prop := Relation.ReflTransGen (Turn lapses)

/-- A step: one in place, or one that changes the list. -/
inductive Move (leaves : Job → Prop) (lapses : Prop) : Table → Table → Prop
  | turn {t t' : Table} (h : Turn lapses t t') : Move leaves lapses t t'
  | promoted (t : Table) {i : ℕ} (hi : i < t.jobs.length) : Move leaves lapses t (t.promote i)
  | removed (t : Table) {i : ℕ} (hi : i < t.jobs.length) {gone : Job}
      (hid : gone.id = (t.job i).id) (h : leaves gone) :
      Move leaves lapses t
        { t with jobs := t.jobs.eraseIdx i, retained := t.retained - 1, freed := t.freed ++ [gone] }
  | added (t : Table) (job : Job) (hid : job.id = t.nextId) (hreported : job.reported = false)
      (hdone : ∀ p ∈ job.processes, p.done = false) :
      Move leaves lapses t
        { t with jobs := job :: t.jobs, nextId := t.nextId + 1, retained := t.retained + 1 }
  | assigned (t : Table) (i stage : ℕ) (pid : ℤ) (h : (t.job i).reported = false ∨ lapses) :
      Move leaves lapses t (t.modify i (Job.assign stage pid))

/-- Steps, one after the other. -/
abbrev Moves (leaves : Job → Prop) (lapses : Prop) : Table → Table → Prop :=
  Relation.ReflTransGen (Move leaves lapses)

theorem Turns.moves {leaves : Job → Prop} {lapses : Prop} {t t' : Table}
    (h : Turns lapses t t') : Moves leaves lapses t t' :=
  Relation.ReflTransGen.mono (fun _ _ => Move.turn) _ _ h

theorem Table.job_eq {t : Table} {i : ℕ} (hi : i < t.jobs.length) : t.job i = t.jobs[i] := by
  simp [job, List.getElem?_eq_getElem hi]

/-- What a job is named by. -/
def Job.face (job : Job) : ℕ × Bytes × List ℤ := (job.id, job.text, job.processes.map Process.pid)

theorem Job.Evolves.face {j k : Job} (h : Evolves j k) : k.face = j.face := by
  unfold Job.face
  rw [h.id, h.text, Aligned.map_eq (fun _ _ h => h.pid) h.processes]

theorem Turn.faces {lapses : Prop} {t t' : Table} (h : Turn lapses t t') :
    t'.jobs.map Job.face = t.jobs.map Job.face := by
  cases h with
  | said stream line h => rfl
  | evolved h => exact Aligned.map_eq (fun _ _ h => h.face) h
  | told stream line hi hc hnews h =>
    exact Aligned.map_eq (fun _ _ h => h.face) (Aligned.modify .refl _ _ fun _ => Job.Evolves.told _)
  | lapsed stream line h => rfl

/-- Steps in place keep the name of the job at every place. -/
theorem Turns.faces {lapses : Prop} {t t' : Table} (h : Turns lapses t t') :
    t'.jobs.map Job.face = t.jobs.map Job.face := by
  induction h with
  | refl => rfl
  | tail _ h ih => exact h.faces.trans ih

theorem Turns.length {lapses : Prop} {t t' : Table} (h : Turns lapses t t') :
    t'.jobs.length = t.jobs.length := by
  simpa using congrArg List.length h.faces

theorem Turns.job_face {lapses : Prop} {t t' : Table} (h : Turns lapses t t') (i : ℕ) :
    (t'.job i).face = (t.job i).face := by
  have hmap := congrArg (fun faces => faces.getD i (default : Job).face) h.faces
  simpa [Table.job, List.getD_eq_getElem?_getD, Option.getD_map] using hmap

/-- A change of one job in place. -/
theorem Turns.modify {lapses : Prop} (t : Table) (i : ℕ) {f : Job → Job}
    (h : (t.job i).Evolves (f (t.job i))) : Turns lapses t (t.modify i f) := by
  refine .single (.evolved t (Aligned.modify .refl _ _ fun hi => ?_))
  rw [Table.job_eq hi] at h
  exact h

/-- Lines that do not report an end. -/
theorem Turns.lines {lapses : Prop} (t : Table) {lines : List (Stream × Line)}
    (h : ∀ entry ∈ lines, ∀ id, entry.2.completionOf id = false) :
    Turns lapses t { t with log := t.log ++ lines } := by
  induction lines generalizing t with
  | nil =>
    rw [List.append_nil]
  | cons entry lines ih =>
    have hfirst : Turns lapses t (t.said entry.1 entry.2) :=
      .single (.said t _ _ (h entry List.mem_cons_self))
    have hrest := ih (t.said entry.1 entry.2) fun e he => h e (List.mem_cons_of_mem _ he)
    simpa [Table.said] using hfirst.trans hrest

/-! ### Collecting -/

variable {σ : Type} (host : Host σ) {lapses : Prop}

theorem pollProcesses_evolves (ps : List Process) (world : σ) :
    List.Forall₂ Process.Evolves ps (pollProcesses host ps world).1.1 := by
  induction ps generalizing world with
  | nil => exact .nil
  | cons p ps ih =>
    unfold pollProcesses
    cases hp : p.live with
    | false => exact .cons (.refl p) (ih world)
    | true =>
      have hevolves := Process.poll_evolves (host.collect world p.pid).1.2
        (host.collect world p.pid).1.1 (Process.not_done_of_live hp)
      cases hf : (p.poll (host.collect world p.pid).1.2 (host.collect world p.pid).1.1).2 with
      | true =>
        simp only [hf, Bool.not_true, Bool.false_eq_true, if_false, if_true]
        exact .cons hevolves (Aligned.refl .refl ps)
      | false =>
        simp only [hf, Bool.not_true, Bool.false_eq_true, if_false]
        exact .cons hevolves (ih _)

theorem pollJobs_evolves (jobs : List Job) (world : σ) :
    List.Forall₂ Job.Evolves jobs (pollJobs host jobs world).1.1 := by
  induction jobs generalizing world with
  | nil => exact .nil
  | cons job jobs ih =>
    have hprocesses := Job.Evolves.of_processes (pollProcesses_evolves host job.processes world)
    unfold pollJobs
    cases hf : (pollProcesses host job.processes world).1.2 with
    | true =>
      simp only [hf, if_true]
      exact .cons hprocesses (Aligned.refl .refl jobs)
    | false =>
      simp only [hf, Bool.false_eq_true, if_false]
      exact .cons (hprocesses.noting rfl) (ih _)

theorem Manager.poll_turns (m : Manager σ) : Turns lapses m.toTable (m.poll host).2.toTable :=
  .single (.evolved m.toTable (pollJobs_evolves host m.jobs m.world))

theorem collectDeparted_evolves (ps : List Process) (world : σ) :
    List.Forall₂ Process.Evolves ps (collectDeparted host ps world).1.1 := by
  induction ps generalizing world with
  | nil => exact .nil
  | cons p ps ih =>
    unfold collectDeparted
    cases hp : p.live with
    | false => exact .cons (.refl p) (ih world)
    | true =>
      cases hd : (host.departed world p.pid).1 with
      | false =>
        simp only [hd, Bool.not_true, Bool.not_false, Bool.false_eq_true, if_false, if_true]
        exact .cons (.refl p) (ih _)
      | true =>
        simp only [hd, Bool.not_true, Bool.false_eq_true, if_false]
        cases hw : (host.wait (host.departed world p.pid).2 p.pid).1 with
        | none => exact Aligned.refl .refl _
        | some ended =>
          have hopen := Process.not_done_of_live hp
          exact .cons (.of_open rfl hopen fun _ => rfl) (ih _)

theorem Manager.continueJob_turns (m : Manager σ) (i : ℕ) :
    Turns lapses m.toTable (m.continueJob host i).2.toTable := by
  unfold continueJob on
  dsimp only
  split
  · exact Turns.modify _ i (Job.Evolves.resumed _)
  · -- the world after the refusal does not matter to the table
    generalize hm : { m with world := (host.kill m.world (-(m.job i).pgid) (host.number .cont)).2 } = m₁
    have htable : m.toTable = m₁.toTable := by rw [← hm]
    rw [htable]
    have hpoll : Turns lapses m₁.toTable (m₁.poll host).2.toTable := m₁.poll_turns host
    split
    · exact hpoll
    · have hcollect : Turns lapses (m₁.poll host).2.toTable
          ((m₁.poll host).2.toTable.modify i fun job => { job with
            processes := (collectDeparted host ((m₁.poll host).2.job i).processes
              (m₁.poll host).2.world).1.1 }) :=
        Turns.modify _ i (.of_processes (collectDeparted_evolves host _ _))
      split
      · exact hpoll.trans hcollect
      · exact (hpoll.trans hcollect).trans (Turns.modify _ i (Job.Evolves.resumed _))

/-! ### Writing -/

/-- A line is written, or the table is as it was. -/
theorem Manager.output_toTable (m : Manager σ) (stream : Stream) (line : Line) :
    (m.output host stream line).2.toTable =
      if (m.output host stream line).1 = true then m.toTable.said stream line else m.toTable := by
  unfold output on
  dsimp only
  split <;> rfl

theorem Manager.output_turns (m : Manager σ) (stream : Stream) {line : Line}
    (h : ∀ id, line.completionOf id = false) :
    Turns lapses m.toTable (m.output host stream line).2.toTable := by
  rw [m.output_toTable host]
  split
  · exact .single (.said _ _ _ h)
  · exact .refl

theorem Manager.diagnostic_turns (m : Manager σ) (name message : Bytes) (operand : Option Bytes) :
    Turns lapses m.toTable (m.diagnostic host name message operand).toTable :=
  m.output_turns host _ fun _ => rfl

theorem Manager.announce_turns (m : Manager σ) (i : ℕ) :
    Turns lapses m.toTable (m.announce host i).toTable := by
  unfold announce
  split
  · exact m.output_turns host _ fun _ => rfl
  · exact .refl

/-- The further lines of `jobs -l` say nothing about an end. -/
theorem Manager.printStages_log (stream : Stream) (text : Bytes) (ps : List Process)
    (m : Manager σ) :
    ∃ lines : List (Stream × Line), (∀ entry ∈ lines, ∀ id, entry.2.completionOf id = false) ∧
      (m.printStages host stream text ps).2.toTable =
        { m.toTable with log := m.log ++ lines } := by
  induction ps generalizing m with
  | nil =>
    refine ⟨[], by simp, ?_⟩
    rw [List.append_nil]
    rfl
  | cons p ps ih =>
    have htable := m.output_toTable host stream (.stage p.pid text)
    unfold printStages
    cases hw : (m.output host stream (.stage p.pid text)).1 with
    | false =>
      rw [hw, if_neg Bool.false_ne_true] at htable
      refine ⟨[], by simp, ?_⟩
      simp only [hw, Bool.false_eq_true, if_false, List.append_nil]
      exact htable
    | true =>
      rw [hw, if_pos rfl] at htable
      obtain ⟨lines, hlines, hrest⟩ := ih (m.output host stream (.stage p.pid text)).2
      refine ⟨(stream, .stage p.pid text) :: lines, ?_, ?_⟩
      · intro entry hentry id
        rcases List.mem_cons.mp hentry with rfl | hentry
        · rfl
        · exact hlines entry hentry id
      · simp only [hw, if_true]
        rw [hrest, htable]
        simp [Table.said]

/-- The state shown is that of an end exactly for a completed job. -/
theorem Job.completion_stateText (job : Job) :
    (job.stateText host).completion = job.complete := by
  unfold stateText
  cases hs : job.stopped with
  | true =>
    rw [complete_of_stopped hs]
    dsimp only
    simp only [if_true]
    split <;> rfl
  | false =>
    cases hc : job.complete with
    | false => rfl
    | true =>
      simp only [Bool.false_eq_true, if_false, if_true]
      split
      · rfl
      · split <;> rfl

/-- The line of a job reports the end of that job only, and only of a completed one. -/
theorem completionOf_line {job : Job} {marker : Marker} {pid : Option ℤ} {id : ℕ}
    (h : (Line.job job.id marker pid (job.stateText host) job.text).completionOf id = true) :
    id = job.id ∧ job.complete = true := by
  simp only [Line.completionOf, Job.completion_stateText] at h
  have hparts := Bool.and_eq_true_iff.mp h
  exact ⟨(beq_iff_eq.mp hparts.1).symm, hparts.2⟩

/-- `jobs -l` of a completed job is torn when its line is written and a line of its
stages is not. -/
def Manager.Torn (m : Manager σ) (i : ℕ) (stream : Stream) (format : Format) : Prop :=
  format = .long ∧ (m.job i).complete = true ∧
    let line := Line.job (m.job i).id (m.marker i) (some (m.job i).displayedPid)
      ((m.job i).stateText host) (m.job i).text
    let stages := (m.job i).processes.filter fun p => p.pid != (m.job i).displayedPid
    (m.output host stream line).1 = true ∧
      ((m.output host stream line).2.printStages host stream (m.job i).text stages).1 = false

/-- The line of a job: a report that is noted, or one of a job that goes on. -/
theorem Turns.told_of_line {t : Table} {i : ℕ} (stream : Stream) (marker : Marker)
    (pid : Option ℤ) (hi : i < t.jobs.length)
    (hnews : (t.job i).complete = true → (t.job i).reported = false ∨ (t.job i).changed = true) :
    Turns lapses t ((t.modify i Job.told).said stream
      (.job (t.job i).id marker pid ((t.job i).stateText host) (t.job i).text)) := by
  cases hc : (t.job i).complete with
  | true => exact .single (.told t _ _ hi hc (hnews hc) fun id h => (completionOf_line host h).1)
  | false =>
    refine (modify t i (Job.Evolves.told _)).tail (.said _ _ _ fun id => ?_)
    rw [Bool.eq_false_iff]
    intro h
    rw [(completionOf_line host h).2] at hc
    cases hc

/-- A report that succeeds is noted. -/
theorem Manager.printJob_told (m : Manager σ) {i : ℕ} (stream : Stream) (format : Format)
    (hi : i < m.jobs.length)
    (hnews : (m.job i).complete = true → (m.job i).reported = false ∨ (m.job i).changed = true)
    (hw : (m.printJob host i stream format).1 = true) :
    Turns lapses m.toTable (((m.printJob host i stream format).2.modify i Job.told).toTable) := by
  unfold printJob at hw ⊢
  cases format with
  | pids =>
    have hline : Turns lapses m.toTable
        (m.output host stream (.pid (m.job i).displayedPid)).2.toTable :=
      m.output_turns host stream fun _ => rfl
    exact hline.trans (Turns.modify _ i (Job.Evolves.told _))
  | short =>
    have hline : Turns lapses m.toTable _ :=
      Turns.told_of_line host stream (m.marker i) none hi hnews
    have htable := m.output_toTable host stream
      (.job (m.job i).id (m.marker i) none ((m.job i).stateText host) (m.job i).text)
    dsimp only at hw ⊢
    rw [hw, if_pos rfl] at htable
    unfold modify withTable
    rw [htable]
    exact hline
  | long =>
    have hline : Turns lapses m.toTable _ :=
      Turns.told_of_line host stream (m.marker i) (some (m.job i).displayedPid) hi hnews
    have htable := m.output_toTable host stream
      (.job (m.job i).id (m.marker i) (some (m.job i).displayedPid)
        ((m.job i).stateText host) (m.job i).text)
    dsimp only at hw ⊢
    split at hw
    · rename_i hfirst
      rw [hfirst, if_pos rfl] at htable
      rw [if_pos hfirst]
      obtain ⟨lines, hlines, hrest⟩ := printStages_log host stream (m.job i).text
        ((m.job i).processes.filter fun p => p.pid != (m.job i).displayedPid) _
      unfold modify withTable
      rw [hrest, htable]
      exact hline.trans (Turns.lines _ hlines)
    · cases hw

/-- The line of a job that is not noted. -/
theorem Turns.lapsed_of_line {t : Table} {job : Job} (stream : Stream) (marker : Marker)
    (pid : Option ℤ) (h : job.complete = true → lapses) :
    Turns lapses t (t.said stream (.job job.id marker pid (job.stateText host) job.text)) := by
  cases hc : job.complete with
  | true => exact .single (.lapsed t _ _ (h hc))
  | false =>
    refine .single (.said t _ _ fun id => ?_)
    rw [Bool.eq_false_iff]
    intro hline
    rw [(completionOf_line host hline).2] at hc
    cases hc

/-- A report that fails leaves nothing behind, unless it is torn. -/
theorem Manager.printJob_failed (m : Manager σ) {i : ℕ} {stream : Stream} {format : Format}
    (htorn : m.Torn host i stream format → lapses)
    (hw : (m.printJob host i stream format).1 = false) :
    Turns lapses m.toTable (m.printJob host i stream format).2.toTable := by
  unfold printJob at hw ⊢
  cases format with
  | pids => exact m.output_turns host stream fun _ => rfl
  | short =>
    dsimp only at hw ⊢
    rw [m.output_toTable host, hw, if_neg Bool.false_ne_true]
  | long =>
    have htable := m.output_toTable host stream
      (.job (m.job i).id (m.marker i) (some (m.job i).displayedPid)
        ((m.job i).stateText host) (m.job i).text)
    dsimp only at hw ⊢
    split at hw
    · rename_i hfirst
      rw [hfirst, if_pos rfl] at htable
      rw [if_pos hfirst]
      obtain ⟨lines, hlines, hrest⟩ := printStages_log host stream (m.job i).text
        ((m.job i).processes.filter fun p => p.pid != (m.job i).displayedPid) _
      have hline : Turns lapses m.toTable _ :=
        Turns.lapsed_of_line host stream (m.marker i) (some (m.job i).displayedPid)
          fun hc => htorn ⟨rfl, hc, hfirst, hw⟩
      rw [hrest, htable]
      exact hline.trans (Turns.lines _ hlines)
    · rename_i hfirst
      rw [if_neg hfirst] at htable
      rw [if_neg hfirst, htable]

theorem Manager.notifyOne_turns (m : Manager σ) {i : ℕ} (hi : i < m.jobs.length) :
    Turns lapses m.toTable (m.notifyOne host i).toTable := by
  unfold notifyOne
  split
  · rename_i hnews
    have hchanged : (m.job i).changed = true := (Bool.and_eq_true_iff.mp hnews).2
    dsimp only
    split
    · rename_i hw
      exact m.printJob_told host .stderr .short hi (fun _ => .inr hchanged) hw
    · rename_i hw
      refine m.printJob_failed host (fun htorn => ?_) (Bool.eq_false_iff.mpr hw)
      cases htorn.1
  · exact .refl

/-- A loop over the places of the list whose rounds are steps in place. -/
theorem turns_foldl {α : Type} {step : α → ℕ → α} (table : α → Table)
    (hstep : ∀ a i, i < (table a).jobs.length → Turns lapses (table a) (table (step a i)))
    (places : List ℕ) (a : α) (hplaces : ∀ i ∈ places, i < (table a).jobs.length) :
    Turns lapses (table a) (table (places.foldl step a)) := by
  induction places generalizing a with
  | nil => exact .refl
  | cons i places ih =>
    have hfirst := hstep a i (hplaces i List.mem_cons_self)
    refine hfirst.trans (ih (step a i) fun k hk => ?_)
    rw [hfirst.length]
    exact hplaces k (List.mem_cons_of_mem _ hk)

theorem Manager.notify_turns (m : Manager σ) : Turns lapses m.toTable (m.notify host).toTable := by
  unfold notify
  split
  · exact turns_foldl toTable (fun a i hi => a.notifyOne_turns host hi) _ m
      fun i hi => List.mem_range.mp hi
  · exact .refl

/-! ### Waiting and the terminal -/

theorem Manager.waitLoop_turns (i : ℕ) (interruptible : Bool) (rounds : ℕ) (m : Manager σ) :
    Turns lapses m.toTable (m.waitLoop host i interruptible rounds).2.toTable := by
  induction rounds generalizing m with
  | zero => exact .refl
  | succ rounds ih =>
    have hpoll : Turns lapses m.toTable (m.poll host).2.toTable := m.poll_turns host
    unfold waitLoop
    dsimp only
    split
    · exact hpoll
    · generalize hn : (if hasBit (m.poll host).2.options Opt.notify then (m.poll host).2.notify host
        else (m.poll host).2) = n
      have hnotify : Turns lapses (m.poll host).2.toTable n.toTable := by
        rw [← hn]
        split
        · exact (m.poll host).2.notify_turns host
        · exact .refl
      have hround := hpoll.trans hnotify
      split
      · exact hround
      · split
        · exact hround
        · split
          · exact hround
          · split
            · exact hround
            · exact hround.trans (ih { n with world := host.suspend n.world })

theorem Manager.waitJob_turns (rounds : ℕ) (m : Manager σ) (i : ℕ) (interruptible : Bool) :
    Turns lapses m.toTable (m.waitJob host rounds i interruptible).2.toTable :=
  waitLoop_turns host i interruptible rounds { m with world := host.clearInterrupt m.world }

/-- A change of a job that does not touch what is reported of it. -/
theorem Job.Evolves.of_same {j k : Job} (hid : k.id = j.id) (htext : k.text = j.text)
    (hprocesses : k.processes = j.processes) (hchanged : k.changed = j.changed)
    (hreported : k.reported = j.reported) : Evolves j k := by
  refine ⟨hid, htext, hprocesses ▸ Aligned.refl .refl _, fun _ h => hchanged ▸ h, fun h => hreported ▸ h,
    fun h => .inl (hreported ▸ h)⟩

/-- The terminal is taken back: at most the modes of the job are remembered. -/
theorem Manager.restoreTerminal_toTable (m : Manager σ) (i : ℕ) :
    (m.restoreTerminal host i).2.toTable = m.toTable ∨ ∃ kept : Bool,
      (m.restoreTerminal host i).2.toTable =
        m.toTable.modify i fun job => { job with modesValid := kept } := by
  unfold restoreTerminal on
  dsimp only
  split
  · exact .inl rfl
  · split
    · right
      refine ⟨(host.terminal m.world .getModes).1, ?_⟩
      split
      · split <;> rfl
      · rfl
    · left
      split
      · split <;> rfl
      · rfl

theorem Manager.restoreTerminal_turns (m : Manager σ) (i : ℕ) :
    Turns lapses m.toTable (m.restoreTerminal host i).2.toTable := by
  rcases m.restoreTerminal_toTable host i with h | ⟨kept, h⟩
  · rw [h]
  · rw [h]
    exact Turns.modify _ i (.of_same rfl rfl rfl rfl rfl)

theorem Manager.giveTerminal_toTable (m : Manager σ) (i : ℕ) (resume : Bool) :
    (m.giveTerminal host i resume).2.toTable = m.toTable := by
  unfold giveTerminal on
  dsimp only
  split
  · rfl
  · split
    · rfl
    · split
      · rfl
      · split <;> rfl

theorem Manager.resume_turns (m : Manager σ) (i : ℕ) :
    Turns lapses m.toTable (m.resume host i).2.toTable := by
  have hgive := m.giveTerminal_toTable host i true
  unfold resume
  generalize m.giveTerminal host i true = given at hgive ⊢
  obtain ⟨ok, g⟩ := given
  dsimp only at hgive ⊢
  rw [← hgive]
  split
  · exact .refl
  · have hline : Turns lapses g.toTable (g.output host .stdout (.command (g.job i).text)).2.toTable :=
      g.output_turns host .stdout fun _ => rfl
    split
    · exact hline.trans (continueJob_turns host _ i)
    · exact hline

end Jobs

end CShell
