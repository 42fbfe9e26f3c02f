import CShell.Jobs.Invariant

/-!
# The end of a job is reported once

A job whose end has been reported is completed and no news, and none of its completion
lines was written before.  The steps keep that, except where a call lapses: `bg` prints
a job that `continue_job` found to have ended and does not note the report, so that
`jobs` prints it again; and `jobs -l` does not note a report that broke off after its
first line.

* `Table.Reports` — the invariant of reports, kept by every step that does not lapse.
* `Manager.Clean` — a run none of whose calls lapses.
* `Manager.reported_once` — **in such a run the end of a job is written at most once.**
* `Manager.reported_twice` — `bg` and `jobs` writing it twice.
-/

namespace CShell

namespace Jobs

variable {σ : Type} (host : Host σ) {leaves : Job → Prop}

/-- How often the end of job `id` has been written. -/
def Table.completions (t : Table) (id : ℕ) : ℕ :=
  t.log.countP fun entry => entry.2.completionOf id

/-- The invariant of reports. -/
structure Table.Reports (t : Table) : Prop where
  sound : t.Sound
  settled : ∀ job ∈ t.jobs, job.reported = true → job.complete = true ∧ job.changed = false
  silent : ∀ job ∈ t.jobs, job.reported = false → t.completions job.id = 0
  future : ∀ id, t.nextId ≤ id → t.completions id = 0
  once : ∀ id, t.completions id ≤ 1

namespace Table

theorem completions_said (t : Table) (stream : Stream) (line : Line) (id : ℕ) :
    (t.said stream line).completions id =
      t.completions id + if line.completionOf id = true then 1 else 0 := by
  unfold completions said
  rw [List.countP_append]
  simp [List.countP_cons]

/-- The jobs of a list with one of them replaced. -/
theorem mem_modify {t : Table} {i : ℕ} {f : Job → Job} {job : Job}
    (h : job ∈ (t.modify i f).jobs) :
    (i < t.jobs.length ∧ job = f (t.job i)) ∨ ∃ k, ∃ hk : k < t.jobs.length, k ≠ i ∧ job = t.jobs[k] := by
  obtain ⟨k, hk, rfl⟩ := List.getElem_of_mem h
  have hk' : k < t.jobs.length := by
    simpa [modify] using hk
  by_cases hki : k = i
  · subst hki
    refine .inl ⟨hk', ?_⟩
    rw [job_eq hk']
    simp [modify]
  · refine .inr ⟨k, hk', hki, ?_⟩
    simp [modify, Ne.symm hki]

/-- Two places of the list hold jobs of different numbers. -/
theorem Sound.id_ne {t : Table} (h : Sound t) {i k : ℕ} (hi : i < t.jobs.length)
    (hk : k < t.jobs.length) (hne : k ≠ i) : t.jobs[k].id ≠ t.jobs[i].id := by
  have hnodup := h.nodup
  rw [List.map_append, List.nodup_append] at hnodup
  intro heq
  have hinjective := List.nodup_iff_injective_get.mp hnodup.1
  have hplaces := @hinjective ⟨k, by simpa using hk⟩ ⟨i, by simpa using hi⟩ (by simpa using heq)
  exact hne (congrArg Fin.val hplaces)

end Table

theorem Table.Reports.evolve {t : Table} (ht : Reports t) {jobs : List Job}
    (h : List.Forall₂ Job.Evolves t.jobs jobs) : Reports { t with jobs } where
  sound := ht.sound.in_place (h.imp fun _ _ h => h.apart)
  settled := by
    intro k hk hreported
    obtain ⟨j, hj, hjk⟩ := Aligned.exists_left h hk
    rcases hjk.reported hreported with hold | hnew
    · obtain ⟨hcomplete, hchanged⟩ := ht.settled j hj hold
      refine ⟨hjk.complete hcomplete, ?_⟩
      rw [Bool.eq_false_iff]
      intro hkc
      rw [hjk.changed hcomplete hkc] at hchanged
      cases hchanged
    · exact hnew
  silent := by
    intro k hk hreported
    obtain ⟨j, hj, hjk⟩ := Aligned.exists_left h hk
    rw [hjk.id]
    refine ht.silent j hj ?_
    rw [Bool.eq_false_iff]
    intro hjr
    rw [hjk.kept hjr] at hreported
    cases hreported
  future := ht.future
  once := ht.once

theorem Turn.reports {t t' : Table} (h : Turn False t t') (ht : t.Reports) : t'.Reports := by
  have hsound := h.sound ht.sound
  cases h with
  | said stream line h =>
    have hsame : ∀ id, (t.said stream line).completions id = t.completions id := by
      intro id
      rw [Table.completions_said, h id]
      rfl
    exact ⟨hsound, ht.settled, fun job hjob hr => (hsame _).trans (ht.silent job hjob hr),
      fun id hid => (hsame id).trans (ht.future id hid), fun id => (hsame id).symm ▸ ht.once id⟩
  | evolved h => exact ht.evolve h
  | @told i stream line hi hc hnews h =>
    have hjob : t.job i ∈ t.jobs := by
      rw [Table.job_eq hi]
      exact List.getElem_mem hi
    -- a job that is news was not reported
    have hreported : (t.job i).reported = false := by
      rcases hnews with hnews | hnews
      · exact hnews
      · rw [Bool.eq_false_iff]
        intro hr
        rw [(ht.settled _ hjob hr).2] at hnews
        cases hnews
    have hcount : ∀ id, ((t.modify i Job.told).said stream line).completions id ≤
        t.completions id + if id = (t.job i).id then 1 else 0 := by
      intro id
      rw [Table.completions_said]
      refine Nat.add_le_add_left ?_ _
      split
      · rename_i hline
        rw [if_pos (h id hline)]
      · exact Nat.zero_le _
    have hother : ∀ id, id ≠ (t.job i).id →
        ((t.modify i Job.told).said stream line).completions id ≤ t.completions id := by
      intro id hne
      have hle := hcount id
      rw [if_neg hne] at hle
      exact hle
    refine ⟨hsound, ?_, ?_, ?_, ?_⟩
    · intro k hk hr
      rcases Table.mem_modify hk with ⟨-, rfl⟩ | ⟨n, hn, -, rfl⟩
      · exact ⟨hc, rfl⟩
      · exact ht.settled _ (List.getElem_mem hn) hr
    · intro k hk hr
      rcases Table.mem_modify hk with ⟨-, rfl⟩ | ⟨n, hn, hne, rfl⟩
      · unfold Job.told at hr
        rw [hc, Bool.or_true] at hr
        cases hr
      · have hid : t.jobs[n].id ≠ (t.job i).id := by
          rw [Table.job_eq hi]
          exact ht.sound.id_ne hi hn hne
        have hzero := ht.silent _ (List.getElem_mem hn) hr
        have hle := hother _ hid
        omega
    · intro id hid
      have hlt : (t.job i).id < t.nextId := ht.sound.lt hjob
      have hid' : t.nextId ≤ id := hid
      have hzero := ht.future id hid'
      have hle := hother id (by omega)
      omega
    · intro id
      by_cases hid : id = (t.job i).id
      · have hzero := ht.silent _ hjob hreported
        have hle := hcount id
        rw [if_pos hid] at hle
        rw [← hid] at hzero
        omega
      · exact (hother id hid).trans (ht.once id)
  | lapsed stream line h => exact h.elim

theorem Move.reports {t t' : Table} (h : Move leaves False t t') (ht : t.Reports) : t'.Reports := by
  have hsound := h.sound ht.sound
  cases h with
  | turn h => exact h.reports ht
  | @promoted i hi =>
    have hmem : ∀ job ∈ (t.promote i).jobs, job ∈ t.jobs := fun job hjob =>
      (Table.perm_erase hi).subset hjob
    exact ⟨hsound, fun job hjob => ht.settled job (hmem job hjob),
      fun job hjob => ht.silent job (hmem job hjob), ht.future, ht.once⟩
  | @removed i hi gone hid h =>
    have hmem : ∀ job ∈ t.jobs.eraseIdx i, job ∈ t.jobs := fun job hjob =>
      List.mem_of_mem_eraseIdx hjob
    exact ⟨hsound, fun job hjob => ht.settled job (hmem job hjob),
      fun job hjob => ht.silent job (hmem job hjob), ht.future, ht.once⟩
  | added job hid hreported hdone =>
    refine ⟨hsound, ?_, ?_, fun id hnext => ht.future id (Nat.le_of_succ_le hnext), ht.once⟩
    · intro k hk hr
      rcases List.mem_cons.mp hk with rfl | hk
      · rw [hreported] at hr
        cases hr
      · exact ht.settled k hk hr
    · intro k hk hr
      rcases List.mem_cons.mp hk with rfl | hk
      · exact ht.future _ (le_of_eq hid.symm)
      · exact ht.silent k hk hr
  | assigned i stage pid h =>
    have hreported : (t.job i).reported = false := h.resolve_right id
    refine ⟨hsound, ?_, ?_, ht.future, ht.once⟩
    · intro k hk hr
      rcases Table.mem_modify hk with ⟨-, rfl⟩ | ⟨n, hn, -, rfl⟩
      · have hsame : ((t.job i).assign stage pid).reported = (t.job i).reported := rfl
        rw [hsame, hreported] at hr
        cases hr
      · exact ht.settled _ (List.getElem_mem hn) hr
    · intro k hk hr
      rcases Table.mem_modify hk with ⟨hi, rfl⟩ | ⟨n, hn, -, rfl⟩
      · refine ht.silent (t.job i) ?_ hreported
        rw [Table.job_eq hi]
        exact List.getElem_mem hi
      · exact ht.silent _ (List.getElem_mem hn) hr

theorem Moves.reports {t t' : Table} (h : Moves leaves False t t') (ht : t.Reports) :
    t'.Reports := by
  induction h with
  | refl => exact ht
  | tail _ hstep ih => exact hstep.reports ih

/-! ### Runs -/

/-- A run none of whose calls lapses. -/
def Manager.Clean (m : Manager σ) : List (Op σ) → Prop
  | [] => True
  | op :: ops => ¬op.Lapses host m ∧ (m.perform host op).Clean ops

theorem create_reports (limit : ℤ) (tty interactive : Bool) (options : UInt32) (world : σ) :
    (create limit tty interactive options world).toTable.Reports where
  sound := create_sound limit tty interactive options world
  settled := fun job hjob => by cases hjob
  silent := fun job hjob => by cases hjob
  future := fun _ _ => rfl
  once := fun _ => Nat.zero_le 1

theorem Manager.run_reports {m : Manager σ} (hm : m.toTable.Reports) (ops : List (Op σ))
    (hclean : m.Clean host ops) : (m.run host ops).toTable.Reports := by
  induction ops generalizing m with
  | nil => exact hm
  | cons op ops ih =>
    have hmoves := m.perform_moves host op
    rw [eq_false hclean.1] at hmoves
    exact ih (hmoves.reports hm) hclean.2

/-- **The end of a job is written at most once** over a run none of whose calls lapses,
and a completed job whose end was reported is not found by an operand of `jobs`. -/
theorem Manager.reported_once (limit : ℤ) (tty interactive : Bool) (options : UInt32) (world : σ)
    (ops : List (Op σ)) (hclean : (create limit tty interactive options world).Clean host ops) :
    let m := (create limit tty interactive options world).run host ops
    (∀ id, m.completions id ≤ 1) ∧
      ∀ operand i, m.findJob (some operand) false = some i →
        ¬((m.job i).complete = true ∧ (m.job i).reported = true) := by
  intro m
  refine ⟨(run_reports host (create_reports limit tty interactive options world) ops
    hclean).once, ?_⟩
  rintro operand i hfind ⟨hc, hr⟩
  rw [(findJob_spec hfind).2.1 rfl hc] at hr
  cases hr

/-! ### Two runs -/

/-- Only `jobs -l` can be torn. -/
theorem Manager.not_tornPlaces (places : List ℕ) (answer : ℤ × Manager σ) :
    ¬Manager.TornPlaces host .short places answer := by
  induction places generalizing answer with
  | nil => exact id
  | cons i places ih =>
    rintro (⟨-, h, -⟩ | h)
    · cases h
    · exact ih _ h

/-- A host on which everything succeeds but the continuation of a group, where the
`n`-th look at a child finds the statuses `statuses n`. -/
def Host.scripted (statuses : ℕ → List WaitStatus) (refuses : Bool) : Host ℕ where
  collect look _ := ((statuses look, false), look + 1)
  wait look _ := (some (.exited 0), look)
  kill look _ _ := (if refuses then some (ascii "refused") else none, look)
  departed look _ := (false, look)
  write look _ _ := (true, look)
  terminal look _ := (true, look)
  attention _ := {}
  clearInterrupt := id
  suspend := id
  number
    | .kill => 9
    | .cont => 18
    | .tstp => 20
    | _ => 15
  validSignal _ := true
  set look options _ := ((0, options), look)
  barrier look := (true, look)
  fork look := (some 100, look)
  setpgid look _ _ := (true, look)
  release look := (true, look)

/-- A job that exits is announced by the next prompt and not listed again. -/
theorem Manager.reported_once_notify :
    let host := Host.scripted (fun _ => [.exited 0]) false
    let ops : List (Op ℕ) :=
      [.launch 0 1 (ascii "sleep 1") true false, .poll, .notify, .builtin 0 .jobs []]
    (create 256 true true Opt.monitor 0).Clean host ops ∧
      ((create 256 true true Opt.monitor 0).run host ops).completions 1 = 1 ∧
      ∀ id, ((create 256 true true Opt.monitor 0).run host ops).completions id ≤ 1 := by
  intro host ops
  have hclean : (create 256 true true Opt.monitor 0).Clean host ops := by
    refine ⟨id, id, id, ?_, trivial⟩
    rintro ⟨-, ⟨-, h⟩ | ⟨h, -⟩⟩
    · exact not_tornPlaces host _ _ h
    · cases h
  exact ⟨hclean, by decide +kernel,
    (reported_once host 256 true true Opt.monitor 0 ops hclean).1⟩

/-- A stopped job exits as `bg` continues it: its group is gone, the child is collected,
`bg` prints `Done`, and the next `jobs` prints it again. -/
theorem Manager.reported_twice :
    let host := Host.scripted (fun look => [[.stopped 20], [], [.exited 0]].getD look []) true
    let ops : List (Op ℕ) :=
      [.launch 0 1 (ascii "sleep 1") true false, .poll, .builtin 0 .bg [], .builtin 0 .jobs []]
    ((create 256 true true Opt.monitor 0).run host ops).completions 1 = 2 := by
  decide +kernel

end Jobs

end CShell
