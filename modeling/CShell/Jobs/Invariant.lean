import CShell.Jobs.Calls

/-!
# The job table over a run

From `csh_jobs_create` on, whatever calls follow in whatever order: the counter of
retained jobs is their number, every number handed out belongs to one job of the table
or to one freed record, a process that was collected keeps its status, and a job leaves
the table only through the calls that may free it.

* `Table.Sound` — the invariant, kept by every step (`Move.sound`).
* `Table.Follows` — what became of the jobs of a table, composed along a run.
* `Manager.run_kept` — **the table over a whole run.**
-/

namespace CShell

namespace Jobs

variable {σ : Type} (host : Host σ) {leaves : Job → Prop} {lapses : Prop}

/-- No process of a job is both done and stopped. -/
def Job.Apart (job : Job) : Prop := ∀ p ∈ job.processes, p.done = true → p.stopped = false

/-- The invariant of the table. -/
structure Table.Sound (t : Table) : Prop where
  retained : t.retained = t.jobs.length
  first : 1 ≤ t.nextId
  ids : ((t.jobs ++ t.freed).map Job.id).Perm (List.range' 1 (t.nextId - 1))
  apart : ∀ job ∈ t.jobs, job.Apart

/-- A collected process keeps its status. -/
def Process.Lasts (p q : Process) : Prop := p.done = true → q.done = true ∧ q.status = p.status

/-- What became of the jobs of `t` in `t'`: each is there with its collected processes,
or its record was freed. -/
structure Table.Follows (t t' : Table) : Prop where
  freed : t.freed <+: t'.freed
  jobs : ∀ job ∈ t.jobs,
    (∃ job' ∈ t'.jobs, job'.id = job.id ∧
      List.Forall₂ Process.Lasts job.processes job'.processes) ∨
    ∃ gone ∈ t'.freed, gone.id = job.id

variable {t t' : Table}

namespace Table

theorem Follows.refl (t : Table) : Follows t t where
  freed := List.prefix_rfl
  jobs := fun job hjob => .inl ⟨job, hjob, rfl, Aligned.refl (fun _ h => ⟨h, rfl⟩) _⟩

theorem Follows.trans {t t' t'' : Table} (h : Follows t t') (h' : Follows t' t'') :
    Follows t t'' where
  freed := h.freed.trans h'.freed
  jobs := by
    intro job hjob
    rcases h.jobs job hjob with ⟨job', hjob', hid, hlasts⟩ | ⟨gone, hgone, hid⟩
    · rcases h'.jobs job' hjob' with ⟨job'', hjob'', hid', hlasts'⟩ | ⟨gone, hgone, hid'⟩
      · refine .inl ⟨job'', hjob'', hid'.trans hid, Aligned.trans ?_ hlasts hlasts'⟩
        intro p q r hpq hqr hp
        obtain ⟨hq, hstatus⟩ := hpq hp
        obtain ⟨hr, hstatus'⟩ := hqr hq
        exact ⟨hr, hstatus'.trans hstatus⟩
      · exact .inr ⟨gone, hgone, hid'.trans hid⟩
    · exact .inr ⟨gone, h'.freed.subset hgone, hid⟩

/-- The numbers of the jobs of a table are distinct. -/
theorem Sound.nodup (h : Sound t) : ((t.jobs ++ t.freed).map Job.id).Nodup :=
  h.ids.nodup_iff.mpr List.nodup_range'

theorem Sound.lt (h : Sound t) {job : Job} (hjob : job ∈ t.jobs) :
    job.id < t.nextId := by
  have hmem : job.id ∈ (t.jobs ++ t.freed).map Job.id :=
    List.mem_map_of_mem (List.mem_append_left _ hjob)
  have hrange := h.ids.subset hmem
  have hfirst := h.first
  rw [List.mem_range'_1] at hrange
  omega

end Table

/-! ### One step -/

/-- The jobs in place, each with the processes it had. -/
theorem Table.Follows.of_forall₂ (hfreed : t'.freed = t.freed)
    (h : List.Forall₂ (fun j k : Job => k.id = j.id ∧
      List.Forall₂ Process.Lasts j.processes k.processes) t.jobs t'.jobs) : Follows t t' where
  freed := hfreed ▸ List.prefix_rfl
  jobs := by
    intro job hjob
    obtain ⟨job', hjob', hid, hlasts⟩ := Aligned.exists_right h hjob
    exact .inl ⟨job', hjob', hid, hlasts⟩

theorem Job.Evolves.lasts {j k : Job} (h : Evolves j k) :
    k.id = j.id ∧ List.Forall₂ Process.Lasts j.processes k.processes :=
  ⟨h.id, h.processes.imp fun _ _ h => h.done⟩

theorem Job.assign_lasts (stage : ℕ) (pid : ℤ) (job : Job) :
    List.Forall₂ Process.Lasts job.processes (job.assign stage pid).processes := by
  unfold Job.assign
  exact Aligned.modify (fun _ h => ⟨h, rfl⟩) _ _ fun _ h => ⟨h, rfl⟩

theorem Turn.follows (h : Turn lapses t t') : t.Follows t' := by
  cases h with
  | said stream line h => exact .of_forall₂ rfl (Aligned.refl (fun _ => (Job.Evolves.refl _).lasts) _)
  | evolved h => exact .of_forall₂ rfl (h.imp fun _ _ h => h.lasts)
  | told stream line hi hc hnews h =>
    exact .of_forall₂ rfl (Aligned.modify (fun _ => (Job.Evolves.refl _).lasts) _ _
      fun _ => (Job.Evolves.told _).lasts)
  | lapsed stream line h =>
    exact .of_forall₂ rfl (Aligned.refl (fun _ => (Job.Evolves.refl _).lasts) _)

theorem Move.follows (h : Move leaves lapses t t') : t.Follows t' := by
  cases h with
  | turn h => exact h.follows
  | promoted hi =>
    refine ⟨List.prefix_rfl, fun job hjob => .inl ⟨job, ?_, (Job.Evolves.refl job).lasts⟩⟩
    exact (Table.perm_erase hi).symm.subset hjob
  | @removed i hi gone hid h =>
    refine ⟨⟨[gone], rfl⟩, fun job hjob => ?_⟩
    rcases List.mem_cons.mp ((Table.perm_erase hi).symm.subset hjob) with rfl | hrest
    · exact .inr ⟨gone, List.mem_append_right _ List.mem_cons_self, hid⟩
    · exact .inl ⟨job, hrest, (Job.Evolves.refl job).lasts⟩
  | added job hid hreported hdone =>
    exact ⟨List.prefix_rfl, fun old hold =>
      .inl ⟨old, List.mem_cons_of_mem _ hold, (Job.Evolves.refl old).lasts⟩⟩
  | assigned i stage pid h =>
    exact .of_forall₂ rfl (Aligned.modify (fun _ => (Job.Evolves.refl _).lasts) _ _
      fun _ => ⟨rfl, Job.assign_lasts stage pid _⟩)

theorem Job.Evolves.apart {j k : Job} (h : Evolves j k) : k.id = j.id ∧ (j.Apart → k.Apart) := by
  refine ⟨h.id, fun hj q hq => ?_⟩
  obtain ⟨p, hp, hpq⟩ := Aligned.exists_left h.processes hq
  exact hpq.apart (hj p hp)

theorem Job.assign_apart (stage : ℕ) (pid : ℤ) (job : Job) :
    (job.assign stage pid).id = job.id ∧ (job.Apart → (job.assign stage pid).Apart) := by
  refine ⟨rfl, fun hjob q hq => ?_⟩
  have hsame : List.Forall₂ (fun p q : Process => q.done = p.done ∧ q.stopped = p.stopped)
      job.processes (job.assign stage pid).processes :=
    Aligned.modify (fun _ => ⟨rfl, rfl⟩) _ _ fun _ => ⟨rfl, rfl⟩
  obtain ⟨p, hp, hdone, hstopped⟩ := Aligned.exists_left hsame hq
  rw [hdone, hstopped]
  exact hjob p hp

/-- A change of the jobs in place. -/
theorem Table.Sound.in_place (h : Sound t) {jobs : List Job}
    (hjobs : List.Forall₂ (fun j k : Job => k.id = j.id ∧ (j.Apart → k.Apart)) t.jobs jobs) :
    Sound { t with jobs } where
  retained := h.retained.trans hjobs.length_eq
  first := h.first
  ids := by
    have hids : jobs.map Job.id = t.jobs.map Job.id := Aligned.map_eq (fun _ _ h => h.1) hjobs
    show ((jobs ++ t.freed).map Job.id).Perm _
    rw [List.map_append, hids, ← List.map_append]
    exact h.ids
  apart := by
    intro k hk
    obtain ⟨j, hj, hjk⟩ := Aligned.exists_left hjobs hk
    exact hjk.2 (h.apart j hj)

theorem Turn.sound (h : Turn lapses t t') (ht : t.Sound) : t'.Sound := by
  cases h with
  | said stream line h => exact ⟨ht.retained, ht.first, ht.ids, ht.apart⟩
  | evolved h => exact ht.in_place (h.imp fun _ _ h => h.apart)
  | @told i stream line hi hc hnews h =>
    have htold := ht.in_place (Aligned.modify (fun _ => (Job.Evolves.refl _).apart) t.jobs i
      fun _ => (Job.Evolves.told _).apart)
    exact ⟨htold.retained, htold.first, htold.ids, htold.apart⟩
  | lapsed stream line h => exact ⟨ht.retained, ht.first, ht.ids, ht.apart⟩

theorem Move.sound (h : Move leaves lapses t t') (ht : t.Sound) : t'.Sound := by
  cases h with
  | turn h => exact h.sound ht
  | @promoted i hi =>
    have hperm := Table.perm_erase hi
    refine ⟨ht.retained.trans hperm.length_eq.symm, ht.first, ?_, ?_⟩
    · exact ((hperm.append_right _).map _).trans ht.ids
    · exact fun job hjob => ht.apart job (hperm.subset hjob)
  | @removed i hi gone hid h =>
    have hperm := Table.perm_erase hi
    refine ⟨?_, ht.first, ?_, fun job hjob => ht.apart job (hperm.subset (List.mem_cons_of_mem _ hjob))⟩
    · have hlength := hperm.length_eq
      rw [List.length_cons] at hlength
      have hretained := ht.retained
      show t.retained - 1 = (t.jobs.eraseIdx i).length
      omega
    · -- the number moves from the list of jobs to that of the freed records
      refine List.Perm.trans ?_ (((hperm.append_right t.freed).map Job.id).trans ht.ids)
      simp only [List.map_append, List.map_cons, List.map_nil, List.cons_append, hid]
      rw [← List.append_assoc]
      exact List.perm_append_singleton _ _
  | added job hid hreported hdone =>
    refine ⟨?_, Nat.le_add_left 1 _, ?_, ?_⟩
    · rw [List.length_cons, ht.retained]
    · have hfirst := ht.first
      show ((job :: t.jobs ++ t.freed).map Job.id).Perm (List.range' 1 (t.nextId + 1 - 1))
      rw [List.cons_append, List.map_cons, hid, Nat.add_sub_cancel,
        show t.nextId = t.nextId - 1 + 1 by omega, List.range'_1_concat]
      rw [show 1 + (t.nextId - 1) = t.nextId - 1 + 1 by omega]
      exact (List.Perm.cons _ ht.ids).trans (List.perm_append_singleton _ _).symm
    · intro k hk
      rcases List.mem_cons.mp hk with rfl | hk
      · intro p hp hd
        rw [hdone p hp] at hd
        cases hd
      · exact ht.apart k hk
  | assigned i stage pid h =>
    exact ht.in_place (Aligned.modify (fun _ => (Job.Evolves.refl _).apart) t.jobs i
      fun _ => Job.assign_apart stage pid _)

/-! ### Calls and runs -/

theorem Moves.follows (h : Moves leaves lapses t t') : t.Follows t' := by
  induction h with
  | refl => exact .refl t
  | tail _ hstep ih => exact ih.trans hstep.follows

theorem Moves.sound (h : Moves leaves lapses t t') (ht : t.Sound) : t'.Sound := by
  induction h with
  | refl => exact ht
  | tail _ hstep ih => exact hstep.sound ih

/-- Only records that may go are freed. -/
theorem Moves.freed (h : Moves leaves lapses t t') :
    ∃ gone, t'.freed = t.freed ++ gone ∧ ∀ job ∈ gone, leaves job := by
  induction h with
  | refl => exact ⟨[], by simp, by simp⟩
  | tail _ hstep ih =>
    obtain ⟨gone, hfreed, hgone⟩ := ih
    cases hstep with
    | turn hturn =>
      refine ⟨gone, ?_, hgone⟩
      rw [← hfreed]
      cases hturn <;> rfl
    | promoted hi => exact ⟨gone, hfreed, hgone⟩
    | @removed i hi job hid hleaves =>
      refine ⟨gone ++ [job], ?_, ?_⟩
      · rw [← List.append_assoc, ← hfreed]
      · intro k hk
        rcases List.mem_append.mp hk with hk | hk
        · exact hgone k hk
        · rw [List.mem_singleton.mp hk]
          exact hleaves
    | added job hid hreported hdone => exact ⟨gone, hfreed, hgone⟩
    | assigned i stage pid h => exact ⟨gone, hfreed, hgone⟩

theorem Manager.run_sound {m : Manager σ} (hm : m.toTable.Sound) (ops : List (Op σ)) :
    (m.run host ops).toTable.Sound ∧ m.toTable.Follows (m.run host ops).toTable := by
  induction ops generalizing m with
  | nil => exact ⟨hm, .refl _⟩
  | cons op ops ih =>
    have hmoves := m.perform_moves host op
    obtain ⟨hsound, hfollows⟩ := ih (hmoves.sound hm)
    exact ⟨hsound, hmoves.follows.trans hfollows⟩

theorem create_sound (limit : ℤ) (tty interactive : Bool) (options : UInt32) (world : σ) :
    (create limit tty interactive options world).toTable.Sound := by
  refine ⟨rfl, Nat.le_refl 1, ?_, ?_⟩
  · exact List.Perm.nil
  · intro job hjob
    cases hjob

/-- A job that is still there has kept what was collected of it. -/
theorem Table.Follows.lasts (h : t.Follows t') (ht' : t'.Sound) {job job' : Job}
    (hjob : job ∈ t.jobs) (hjob' : job' ∈ t'.jobs) (hid : job'.id = job.id) :
    List.Forall₂ Process.Lasts job.processes job'.processes := by
  have hnodup := ht'.nodup
  rw [List.map_append, List.nodup_append] at hnodup
  rcases h.jobs job hjob with ⟨k, hk, hkid, hlasts⟩ | ⟨gone, hgone, hgid⟩
  · have hsame : k = job' :=
      List.inj_on_of_nodup_map hnodup.1 hk hjob' (hkid.trans hid.symm)
    rw [← hsame]
    exact hlasts
  · have hne := hnodup.2.2 job'.id (List.mem_map_of_mem hjob') gone.id (List.mem_map_of_mem hgone)
    exact absurd (hid.trans hgid.symm) hne

/-- `csh_jobs_add` makes room only while it holds at least the limit of completed jobs:
one less than the limit are left when it stops. -/
theorem Manager.add_evicts (m : Manager σ) (count : ℕ) (text : Bytes) (asynchronous negated : Bool) :
    (m.add count text asynchronous negated).2.freed = m.freed ∨
      m.retentionLimit ≤
        (m.add count text asynchronous negated).2.jobs.tail.countP Job.complete + 1 := by
  unfold Manager.add
  split
  · exact .inl rfl
  · cases asynchronous with
    | false => exact .inl rfl
    | true =>
      rcases m.evict_completed m.jobs.length with h | h
      · left
        show (m.evict m.jobs.length).freed = m.freed
        rw [h]
      · exact .inr h

/-- **The job table over a run.**  From `csh_jobs_create` on, after any calls: the counter
is the number of jobs; their numbers are distinct and below the next one; a process is
never both done and stopped, and one that is done keeps its status through whatever
calls follow; a call frees only the records it may free, and every other job stays; and
`csh_jobs_add` frees only completed jobs, and only while it holds at least the limit of
them. -/
theorem Manager.run_kept (limit : ℤ) (tty interactive : Bool) (options : UInt32) (world : σ)
    (ops : List (Op σ)) :
    let m := (create limit tty interactive options world).run host ops
    m.retained = m.jobs.length ∧
    (m.jobs.map Job.id).Nodup ∧ (∀ job ∈ m.jobs, job.id < m.nextId) ∧
    (∀ job ∈ m.jobs, ∀ p ∈ job.processes, p.done = true → p.stopped = false) ∧
    (∀ more, ∀ job ∈ m.jobs, ∀ job' ∈ (m.run host more).jobs, job'.id = job.id →
      List.Forall₂ (fun p q => p.done = true → q.done = true ∧ q.status = p.status)
        job.processes job'.processes) ∧
    (∀ op, ∃ gone, (m.perform host op).freed = m.freed ++ gone ∧
      (∀ job ∈ gone, op.Frees m job) ∧
      ∀ job ∈ m.jobs, job.id ∈ (m.perform host op).jobs.map Job.id ∨ job.id ∈ gone.map Job.id) ∧
    ∀ count text asynchronous negated,
      ∃ gone, (m.add count text asynchronous negated).2.freed = m.freed ++ gone ∧
        (∀ job ∈ gone, job.complete = true ∧ job.stopped = false) ∧
        (gone = [] ∨ m.retentionLimit ≤
          (m.add count text asynchronous negated).2.jobs.tail.countP Job.complete + 1) := by
  intro m
  have hm : m.toTable.Sound :=
    (Manager.run_sound host (create_sound limit tty interactive options world) ops).1
  have hnodup := hm.nodup
  rw [List.map_append, List.nodup_append] at hnodup
  refine ⟨hm.retained, hnodup.1, fun _ => hm.lt, hm.apart, ?_, ?_, ?_⟩
  · intro more job hjob job' hjob' hid
    obtain ⟨hsound, hfollows⟩ := m.run_sound host hm more
    exact hfollows.lasts hsound hjob hjob' hid
  · intro op
    have hmoves := m.perform_moves host op
    obtain ⟨gone, hfreed, hgone⟩ := hmoves.freed
    refine ⟨gone, hfreed, hgone, fun job hjob => ?_⟩
    rcases hmoves.follows.jobs job hjob with ⟨job', hjob', hid, -⟩ | ⟨record, hrecord, hid⟩
    · exact .inl (hid ▸ List.mem_map_of_mem hjob')
    · rw [hfreed] at hrecord
      rcases List.mem_append.mp hrecord with hold | hnew
      · -- a number that was freed before does not belong to a job
        exact absurd hid.symm
          (hnodup.2.2 job.id (List.mem_map_of_mem hjob) record.id (List.mem_map_of_mem hold))
      · exact .inr (hid ▸ List.mem_map_of_mem hnew)
  · intro count text asynchronous negated
    obtain ⟨gone, hfreed, hgone⟩ := (m.perform_moves host (.add count text asynchronous negated)).freed
    refine ⟨gone, hfreed, fun job hjob => ⟨(hgone job hjob).2, ?_⟩, ?_⟩
    · rw [Bool.eq_false_iff]
      intro hs
      have hc := (hgone job hjob).2
      rw [Job.complete_of_stopped hs] at hc
      cases hc
    · rcases m.add_evicts count text asynchronous negated with h | h
      · left
        have hsame : (m.add count text asynchronous negated).2.freed = m.freed ++ gone := hfreed
        rw [h] at hsame
        simpa using hsame
      · exact .inr h

end Jobs

end CShell
