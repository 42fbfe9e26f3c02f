import CShell.Jobs.Moves

/-!
# The calls on the table as sequences of steps

The functions that free, register or reorder jobs, and the builtins.  Two calls can
write the completion of a job without noting it: `bg` of a job whose children are all
found to have ended after its group refused `SIGCONT`, and `jobs -l` of a completed job
when a line of its stages cannot be written after its own line was.

* `names` — the jobs an operand can stand for.
* `Op.Frees`, `Op.Lapses` — which records a call may free, and when it lapses.
* `Manager.perform_moves` — **every call is a sequence of steps.**
-/

namespace CShell

namespace Jobs

open List

variable {σ : Type} (host : Host σ) {leaves : Job → Prop} {lapses : Prop}

/-! ### Operands -/

/-- Whether an operand can stand for a job: by process id, as the current or the
previous job, by number or by text. -/
def names (operand : Bytes) (face : ℕ × Bytes × List ℤ) : Bool :=
  match operand with
  | [] => false
  | byte :: rest =>
    if byte ≠ byteOf '%' then number operand == some (face.2.2.getLastD 0)
    else if rest ∈ [[], ascii "%", ascii "+", ascii "-"] then true
    else if rest.head?.any digit then number rest == some (face.1 : ℤ)
    else if rest.head? = some (byteOf '?') then contains face.2.1 rest.tail
    else rest.isPrefixOf face.2.1

variable {m : Manager σ} {i : ℕ}

theorem Manager.currentJob_lt {previous i : ℕ} (h : m.currentJob previous = some i) :
    i < m.jobs.length ∧ (m.job i).complete = false := by
  have hmem := mem_of_getElem? h
  unfold currentJobs at hmem
  simp only [mem_append, mem_filter, mem_range, Bool.and_eq_true,
    Bool.not_eq_true'] at hmem
  rcases hmem with h | h
  · exact ⟨h.1, h.2.1.2⟩
  · exact ⟨h.1, h.2.1.2⟩

theorem names_current (face : ℕ × Bytes × List ℤ) : ∀ text ∈
    [ascii "%", ascii "%%", ascii "%+", ascii "%-"], names text face = true := by
  intro text htext
  simp only [mem_cons, not_mem_nil, or_false] at htext
  rcases htext with rfl | rfl | rfl | rfl <;> rfl

theorem Job.last_face (job : Job) : job.face.2.2.getLastD 0 = (job.processes.getLastD {}).pid := by
  simp only [face, getLastD_eq_getLast?, getLast?_map]
  exact Option.getD_map Process.pid {} _

/-- The place found in the list, by number or by process id. -/
theorem find_range {p : ℕ → Bool} {n i : ℕ} (h : (List.range n).find? p = some i) :
    i < n ∧ p i = true :=
  ⟨mem_range.mp (mem_of_find?_eq_some h), find?_some h⟩

/-- What `find_job` returns: a job of the list that the operand can stand for, and for
the builtins other than `wait` not one whose end has been reported. -/
theorem Manager.findJob_spec {operand : Option Bytes} {pidOk : Bool}
    (h : m.findJob operand pidOk = some i) :
    i < m.jobs.length ∧
      (pidOk = false → (m.job i).complete = true → (m.job i).reported = false) ∧
      ∀ text, operand = some text → names text (m.job i).face = true := by
  have hcurrent : ∀ {previous : ℕ}, m.currentJob previous = some i →
      i < m.jobs.length ∧
        (pidOk = false → (m.job i).complete = true → (m.job i).reported = false) := by
    intro previous hfound
    refine ⟨(currentJob_lt hfound).1, fun _ hc => ?_⟩
    rw [(currentJob_lt hfound).2] at hc
    cases hc
  unfold findJob at h
  dsimp only at h
  cases operand with
  | none => exact ⟨(hcurrent h).1, (hcurrent h).2, fun _ h => by cases h⟩
  | some operand =>
    dsimp only at h
    split at h
    · rename_i hspecial
      refine ⟨(hcurrent h).1, (hcurrent h).2, ?_⟩
      rintro text ⟨rfl⟩
      apply names_current
      rcases hspecial with h | h | h <;> simp [h]
    · rename_i hspecial
      split at h
      · rename_i hminus
        refine ⟨(hcurrent h).1, (hcurrent h).2, ?_⟩
        rintro text ⟨rfl⟩
        exact names_current _ _ (by simp [hminus])
      · rename_i hminus
        cases operand with
        | nil => cases h
        | cons byte rest =>
          dsimp only at h
          split at h
          · rename_i hpercent
            -- a process id, which only `wait` takes
            split at h
            · cases h
            · rename_i hpid
              obtain ⟨value, hvalue, hfind⟩ := Option.bind_eq_some_iff.mp h
              split at hfind
              · cases hfind
              · obtain ⟨hlt, hi⟩ := find_range hfind
                refine ⟨hlt, fun hfalse => by simp [hfalse] at hpid, ?_⟩
                rintro text ⟨rfl⟩
                unfold names
                dsimp only
                rw [if_pos hpercent, hvalue, ← beq_iff_eq.mp hi, Job.last_face]
                exact beq_self_eq_true _
          · rename_i hpercent
            have hbyte : byte = byteOf '%' := by simpa using hpercent
            subst hbyte
            have hrest : rest ∉ [[], ascii "%", ascii "+", ascii "-"] := by
              simp only [mem_cons, not_mem_nil, or_false]
              rintro (rfl | rfl | rfl | rfl)
              · exact hspecial (.inl rfl)
              · exact hspecial (.inr (.inl rfl))
              · exact hspecial (.inr (.inr rfl))
              · exact hminus rfl
            split at h
            · rename_i hdigit
              obtain ⟨value, hvalue, hfind⟩ := Option.bind_eq_some_iff.mp h
              split at hfind
              · cases hfind
              · obtain ⟨hlt, hi⟩ := find_range hfind
                have hparts := Bool.and_eq_true_iff.mp hi
                refine ⟨hlt, ?_, ?_⟩
                · intro hfalse hc
                  have hnews := hparts.2
                  rw [hfalse, hc] at hnews
                  simpa using hnews
                · rintro text ⟨rfl⟩
                  unfold names
                  dsimp only
                  rw [if_neg hpercent, if_neg hrest, if_pos hdigit, hvalue]
                  simp only [Job.face, beq_iff_eq, Option.some.injEq]
                  exact (beq_iff_eq.mp hparts.1).symm
            · rename_i hdigit
              split at h
              · rename_i found i' hfound
                obtain rfl : i' = i := by simpa using h
                have hmem : i' ∈ [i'] := mem_singleton.mpr rfl
                rw [← hfound, mem_filter, mem_range] at hmem
                obtain ⟨hlt, hi⟩ := hmem
                have hparts := Bool.and_eq_true_iff.mp hi
                refine ⟨hlt, ?_, ?_⟩
                · intro _ hc
                  rw [hc] at hparts
                  simp at hparts
                · rintro text ⟨rfl⟩
                  unfold names
                  dsimp only
                  rw [if_neg hpercent, if_neg hrest, if_neg hdigit]
                  simpa [Job.face] using hparts.1
              · cases h

/-! ### `kill` and `jobs` -/

/-- Processes that a signal was sent to, and the complaints about those it was not. -/
theorem Manager.killStages_spec (operand : Bytes) (sig : ℕ) (clears : Bool) (ps : List Process)
    (rc : ℤ) (m : Manager σ) :
    List.Forall₂ Process.Evolves ps (m.killStages host operand sig clears ps rc).1.1 ∧
      (m.killStages host operand sig clears ps rc).2.jobs = m.jobs ∧
      Turns lapses m.toTable (m.killStages host operand sig clears ps rc).2.toTable := by
  induction ps generalizing rc m with
  | nil => exact ⟨.nil, rfl, .refl⟩
  | cons p ps ih =>
    unfold killStages
    split
    · obtain ⟨hps, hjobs, hturns⟩ := ih rc m
      exact ⟨.cons (.refl p) hps, hjobs, hturns⟩
    · dsimp only
      split
      · rename_i error _
        obtain ⟨hps, hjobs, hturns⟩ := ih 1
          ((m.on fun w => host.kill w p.pid sig).2.diagnostic host (ascii "kill") error operand)
        have hdiagnostic : Turns lapses m.toTable _ :=
          diagnostic_turns host (m.on fun w => host.kill w p.pid sig).2 (ascii "kill") error
            (some operand)
        refine ⟨.cons (.refl p) hps, hjobs.trans ?_, hdiagnostic.trans hturns⟩
        unfold diagnostic
        rw [output_toTable]
        split <;> rfl
      · obtain ⟨hps, hjobs, hturns⟩ := ih rc (m.on fun w => host.kill w p.pid sig).2
        refine ⟨.cons ?_ hps, hjobs, hturns⟩
        split
        · exact .unstopped p
        · exact .refl p

theorem Manager.killJob_turns (m : Manager σ) (operand : Bytes) (i sig : ℕ) (rc : ℤ) :
    Turns lapses m.toTable (m.killJob host operand i sig rc).2.toTable := by
  unfold killJob
  dsimp only
  split
  · split
    · exact diagnostic_turns host (m.on _).2 _ _ _
    · split
      · refine Turns.modify m.toTable i (.of_processes ?_)
        rw [forall₂_map_right_iff]
        exact forall₂_same.mpr fun p _ => .unstopped p
      · exact .refl
  · obtain ⟨hps, hjobs, hturns⟩ : _ ∧ _ ∧ Turns lapses m.toTable _ :=
      killStages_spec host operand sig
        (sig = host.number .cont || sig = host.number .kill) (m.job i).processes rc m
    generalize m.killStages host operand sig (sig = host.number .cont || sig = host.number .kill)
      (m.job i).processes rc = sent at hps hjobs hturns ⊢
    have hjob : sent.2.job i = m.job i := by
      unfold Table.job
      rw [hjobs]
    refine hturns.trans (Turns.modify _ i (.of_processes ?_))
    rw [hjob]
    exact hps

theorem Manager.killOperands_turns (sig : ℕ) (operands : List Bytes) (rc : ℤ) (m : Manager σ) :
    Turns lapses m.toTable (m.killOperands host sig operands rc).2.toTable := by
  induction operands generalizing rc m with
  | nil => exact .refl
  | cons operand operands ih =>
    have hrefused : ∀ message : Bytes, Turns lapses m.toTable
        (killOperands host sig operands 1
          (m.diagnostic host (ascii "kill") message (some operand))).2.toTable := fun message =>
      (m.diagnostic_turns host _ _ _).trans (ih _ _)
    unfold killOperands
    split
    · split
      · exact hrefused _
      · split
        · exact hrefused _
        · exact (m.killJob_turns host operand _ sig rc).trans (ih _ _)
    · split
      · exact hrefused _
      · split
        · exact hrefused _
        · dsimp only
          split
          · exact (diagnostic_turns host (m.on _).2 _ _ _).trans (ih _ _)
          · exact ih rc (m.on _).2

theorem Manager.listSignals_turns (entries : List (Bytes × Signal)) (m : Manager σ) :
    Turns lapses m.toTable (m.listSignals host entries).2.toTable := by
  induction entries generalizing m with
  | nil => exact .refl
  | cons entry entries ih =>
    have hline : Turns lapses m.toTable (m.output host .stdout (.signalName entry.1)).2.toTable :=
      m.output_turns host .stdout fun _ => rfl
    unfold listSignals
    dsimp only
    split
    · exact hline.trans (ih _)
    · exact hline.trans (diagnostic_turns host _ _ _ _)

theorem Manager.nameSignals_turns (operands : List Bytes) (m : Manager σ) :
    Turns lapses m.toTable (m.nameSignals host operands).2.toTable := by
  induction operands generalizing m with
  | nil => exact .refl
  | cons operand operands ih =>
    unfold nameSignals
    split
    · exact m.diagnostic_turns host _ _ _
    · dsimp only
      split
      · exact m.diagnostic_turns host _ _ _
      · rename_i entry _
        have hline : Turns lapses m.toTable
            (m.output host .stdout (.signalName entry.1)).2.toTable :=
          m.output_turns host .stdout fun _ => rfl
        split
        · exact hline.trans (ih _)
        · exact hline.trans (diagnostic_turns host _ _ _ _)

theorem Manager.killBuiltin_turns (m : Manager σ) (operands : List Bytes) :
    Turns lapses m.toTable (m.killBuiltin host operands).2.toTable := by
  have hwith : ∀ (sig : Option ℕ) (operands : List Bytes),
      Turns lapses m.toTable (m.killWith host sig operands).2.toTable := by
    intro sig operands
    unfold killWith
    split
    · exact m.diagnostic_turns host _ _ _
    · split
      · exact m.diagnostic_turns host _ _ _
      · exact m.killOperands_turns host _ _ _
  unfold killBuiltin
  split
  · exact hwith _ _
  · split
    · split
      · exact m.listSignals_turns host _
      · exact m.nameSignals_turns host _
    · split
      · split
        · exact m.diagnostic_turns host _ _ _
        · exact hwith _ _
      · split
        · exact hwith _ _
        · exact hwith _ _

/-- Whether a report of `jobs` without operands is torn. -/
def Manager.TornPlaces (format : Format) : List ℕ → ℤ × Manager σ → Prop
  | [], _ => False
  | i :: places, answer =>
    ¬((answer.2.job i).complete && (answer.2.job i).reported) = true ∧
        answer.2.Torn host i .stdout format ∨
      TornPlaces format places (Manager.listJob host format answer i)

/-- Whether a report of `jobs` with operands is torn. -/
def Manager.TornOperands (format : Format) : List Bytes → Manager σ → Prop
  | [], _ => False
  | operand :: operands, m =>
    match m.findJob (some operand) false with
    | none =>
      TornOperands format operands
        (m.diagnostic host (ascii "jobs") (ascii "no such job") (some operand))
    | some i =>
      m.Torn host i .stdout format ∨
        TornOperands format operands
          (if (m.printJob host i .stdout format).1 then
            (m.printJob host i .stdout format).2.modify i Job.told
          else (m.printJob host i .stdout format).2.diagnostic host (ascii "jobs")
            (ascii "cannot write output") none)

/-- Whether a report of `jobs` is torn. -/
def Manager.TornJobs (m : Manager σ) (operands : List Bytes) : Prop :=
  match jobsFormat operands with
  | (format, []) => Manager.TornPlaces host format (List.range m.jobs.length) (0, m)
  | (format, operands) => m.TornOperands host format operands

theorem Manager.listJob_turns (format : Format) (answer : ℤ × Manager σ)
    (hi : i < answer.2.jobs.length)
    (htorn : ¬((answer.2.job i).complete && (answer.2.job i).reported) = true →
      answer.2.Torn host i .stdout format → lapses) :
    Turns lapses answer.2.toTable (Manager.listJob host format answer i).2.toTable := by
  unfold listJob
  dsimp only
  split
  · exact .refl
  · rename_i hnews
    split
    · rename_i hw
      refine answer.2.printJob_told host .stdout format hi (fun hc => .inl ?_) hw
      rw [hc, Bool.true_and] at hnews
      exact Bool.eq_false_iff.mpr hnews
    · rename_i hw
      have hprint := answer.2.printJob_failed host (htorn hnews) (Bool.eq_false_iff.mpr hw)
      exact hprint.trans (diagnostic_turns host _ _ _ _)

theorem Manager.listPlaces_turns (format : Format) (places : List ℕ) (answer : ℤ × Manager σ)
    (hplaces : ∀ i ∈ places, i < answer.2.jobs.length)
    (htorn : Manager.TornPlaces host format places answer → lapses) :
    Turns lapses answer.2.toTable
      (places.foldl (Manager.listJob host format) answer).2.toTable := by
  induction places generalizing answer with
  | nil => exact .refl
  | cons i places ih =>
    have hfirst := listJob_turns host format answer (hplaces i mem_cons_self)
      fun hnews h => htorn (.inl ⟨hnews, h⟩)
    refine hfirst.trans (ih _ (fun k hk => ?_) fun h => htorn (.inr h))
    rw [hfirst.length]
    exact hplaces k (mem_cons_of_mem _ hk)

theorem Manager.listOperands_turns (format : Format) (operands : List Bytes) (rc : ℤ)
    (m : Manager σ) (htorn : m.TornOperands host format operands → lapses) :
    Turns lapses m.toTable (m.listOperands host format operands rc).2.toTable := by
  induction operands generalizing rc m with
  | nil => exact .refl
  | cons operand operands ih =>
    unfold listOperands
    unfold Manager.TornOperands at htorn
    cases hfind : m.findJob (some operand) false with
    | none =>
      rw [hfind] at htorn
      exact (m.diagnostic_turns host _ _ _).trans (ih _ _ htorn)
    | some i =>
      rw [hfind] at htorn
      obtain ⟨hi, hnews, -⟩ := findJob_spec hfind
      dsimp only at htorn ⊢
      cases hw : (m.printJob host i .stdout format).1 with
      | true =>
        rw [hw, if_pos rfl] at htorn
        have hprint : Turns lapses m.toTable _ :=
          m.printJob_told host .stdout format hi (fun hc => .inl (hnews rfl hc)) hw
        exact hprint.trans (ih _ _ fun h => htorn (.inr h))
      | false =>
        rw [hw, if_neg Bool.false_ne_true] at htorn
        have hprint := m.printJob_failed host (fun h => htorn (.inl h)) hw
        exact (hprint.trans (diagnostic_turns host _ _ _ _)).trans
          (ih _ _ fun h => htorn (.inr h))

theorem Manager.listJobs_turns (m : Manager σ) (operands : List Bytes)
    (htorn : m.TornJobs host operands → lapses) :
    Turns lapses m.toTable (m.listJobs host operands).2.toTable := by
  unfold listJobs
  unfold Manager.TornJobs at htorn
  split
  · rename_i format heq
    rw [heq] at htorn
    exact listPlaces_turns host format _ (0, m) (fun i hi => mem_range.mp hi) htorn
  · rename_i format operands' hne heq
    rw [heq] at htorn
    cases operands' with
    | nil => exact absurd rfl hne
    | cons operand rest => exact m.listOperands_turns host format _ 0 htorn

/-! ### Jobs that leave -/

theorem Table.modify_erase (t : Table) (i : ℕ) (f : Job → Job) :
    (t.modify i f).jobs.eraseIdx i = t.jobs.eraseIdx i :=
  eraseIdx_modify_of_eq f i t.jobs

/-- `csh_jobs_remove` of a job that may go. -/
theorem Moves.remove {t : Table} (hi : i < t.jobs.length) (h : leaves (t.job i)) :
    Moves leaves lapses t (t.remove i) :=
  .single (.removed t hi rfl h)

theorem Manager.foreground_moves (rounds : ℕ) (m : Manager σ) (resume : Bool)
    (hi : i < m.jobs.length)
    (hleaves : ∀ gone, gone.face = (m.job i).face → gone.complete = true → leaves gone) :
    Moves leaves lapses m.toTable (m.foreground host rounds i resume).2.toTable ∧
      ((m.foreground host rounds i resume).1 = .failed →
        Turns lapses m.toTable (m.foreground host rounds i resume).2.toTable) := by
  unfold foreground
  dsimp only
  have hstart : Turns lapses m.toTable
      (m.modify i fun job => { job with background := false }).toTable :=
    Turns.modify _ i (.of_same rfl rfl rfl rfl rfl)
  generalize (m.modify i fun job => { job with background := false }) = m₀ at hstart ⊢
  have hresume : Turns lapses m.toTable (if resume then m₀.resume host i else (true, m₀)).2.toTable := by
    split
    · exact hstart.trans (m₀.resume_turns host i)
    · exact hstart
  generalize (if resume then m₀.resume host i else (true, m₀)) = resumed at hresume ⊢
  have hwait : Turns lapses m.toTable (if resumed.1 then resumed.2.waitJob host rounds i false
      else (some (-1), resumed.2)).2.toTable := by
    split
    · exact hresume.trans (waitJob_turns host _ _ _ _)
    · exact hresume
  generalize (if resumed.1 then resumed.2.waitJob host rounds i false
    else (some (-1), resumed.2)) = waited at hwait ⊢
  split
  · exact ⟨hwait.moves, fun _ => hwait⟩
  · rename_i rc _
    have hrestore : Turns lapses m.toTable (waited.2.restoreTerminal host i).2.toTable :=
      hwait.trans (waited.2.restoreTerminal_turns host i)
    generalize waited.2.restoreTerminal host i = restored at hrestore ⊢
    have hlt : i < restored.2.jobs.length := by
      rw [hrestore.length]
      exact hi
    split
    · have hback : Turns lapses restored.2.toTable
          (restored.2.modify i fun job => { job with background := true }).toTable :=
        Turns.modify _ i (.of_same rfl rfl rfl rfl rfl)
      exact ⟨Turns.moves (hrestore.trans hback), fun _ => hrestore.trans hback⟩
    · split
      · rename_i hc
        refine ⟨hrestore.moves.trans (Moves.remove hlt (hleaves _ (hrestore.job_face i) hc)), ?_⟩
        intro h
        cases h
      · rename_i hc
        have hchanged : Turns lapses restored.2.toTable (restored.2.modify i
            fun job => { job with background := true, changed := true }).toTable := by
          refine Turns.modify _ i ⟨rfl, rfl, Aligned.refl .refl _, ?_, fun h => h, .inl⟩
          intro hcomplete
          exact absurd hcomplete hc
        refine ⟨(Turns.moves (hrestore.trans hchanged)).tail (.promoted _ ?_), ?_⟩
        · rw [hchanged.length]
          exact hlt
        · intro h
          cases h

/-- The record that `csh_jobs_cancel` frees may say anything of its processes. -/
theorem Manager.cancel_moves (m : Manager σ) (hi : i < m.jobs.length)
    (hleaves : ∀ gone, gone.id = (m.job i).id → leaves gone) :
    Moves leaves lapses m.toTable (m.cancel host i).toTable := by
  unfold cancel
  dsimp only
  generalize hkilled : { m with world := killAll host (m.job i) m.world } = killed
  have hk : m.toTable = killed.toTable := by rw [← hkilled]
  generalize hreaped : killed.on (reapAll host (m.job i).processes) = reaped
  have hr : killed.toTable = reaped.2.toTable := by
    rw [← hreaped]
    rfl
  rw [hk, hr] at hleaves ⊢
  rw [show m.jobs = reaped.2.jobs from congrArg Table.jobs (hk.trans hr)] at hi
  -- the job is changed at its place and taken out of it
  have herase : ∀ f : Job → Job, (∀ job, (f job).id = job.id) →
      Moves leaves lapses reaped.2.toTable ((reaped.2.toTable.modify i f).remove i) := by
    intro f hf
    have hlt : i < (reaped.2.toTable.modify i f).jobs.length := by
      simpa [Table.modify] using hi
    have hid : ((reaped.2.toTable.modify i f).job i).id = (reaped.2.job i).id := by
      rw [Table.job_eq hlt, Table.job_eq hi]
      simp [Table.modify, hf]
    have hmove : Move leaves lapses reaped.2.toTable _ :=
      Move.removed reaped.2.toTable hi hid (hleaves _ hid)
    rw [← Table.modify_erase _ i f] at hmove
    exact .single hmove
  rcases restoreTerminal_toTable host
    (reaped.2.modify i fun job => { job with processes := reaped.1 }) i with h | ⟨kept, h⟩
  · show Moves leaves lapses reaped.2.toTable (Table.remove (toTable _) i)
    rw [h]
    exact herase (fun job => { job with processes := reaped.1 }) fun _ => rfl
  · show Moves leaves lapses reaped.2.toTable (Table.remove (toTable _) i)
    have htwice : (reaped.2.modify i fun job => { job with processes := reaped.1 }).toTable.modify i
        (fun job => { job with modesValid := kept }) =
        reaped.2.toTable.modify i fun job => { job with processes := reaped.1, modesValid := kept } := by
      unfold modify withTable Table.modify
      rw [modify_modify_eq]
      rfl
    rw [h, htwice]
    exact herase (fun job => { job with processes := reaped.1, modesValid := kept }) fun _ => rfl

/-! ### Registration -/

theorem Table.oldest_spec (h : m.oldest = some i) :
    i < m.jobs.length ∧ (m.job i).complete = true := by
  have hmem := mem_of_getLast? h
  rw [mem_filter, mem_range] at hmem
  exact hmem

theorem Manager.evict_moves (rounds : ℕ) (m : Manager σ)
    (hleaves : ∀ gone, gone.complete = true → leaves gone) :
    Moves leaves lapses m.toTable (m.evict rounds).toTable := by
  induction rounds generalizing m with
  | zero => exact .refl
  | succ rounds ih =>
    unfold evict
    split
    · exact .refl
    · split
      · exact .refl
      · split
        · rename_i i hold
          obtain ⟨hi, hc⟩ := Table.oldest_spec hold
          exact (Moves.remove hi (hleaves _ hc)).trans (ih (m.remove i))
        · exact .refl

/-- The list and its counters as a permutation: one job taken out. -/
theorem Table.perm_erase {t : Table} (hi : i < t.jobs.length) :
    (t.job i :: t.jobs.eraseIdx i).Perm t.jobs := by
  rw [job_eq hi]
  exact getElem_cons_eraseIdx_perm hi

/-- Eviction stops at the first table with less than the limit of completed jobs. -/
theorem Manager.evict_completed (rounds : ℕ) (m : Manager σ) :
    m.evict rounds = m ∨ m.retentionLimit ≤ (m.evict rounds).jobs.countP Job.complete + 1 := by
  induction rounds generalizing m with
  | zero => exact .inl rfl
  | succ rounds ih =>
    unfold evict
    split
    · exact .inl rfl
    · split
      · exact .inl rfl
      · rename_i hlimit
        split
        · rename_i i hold
          obtain ⟨hi, hc⟩ := Table.oldest_spec hold
          right
          rcases ih (m.remove i) with hsame | hmore
          · have hcount := (Table.perm_erase hi).countP_eq Job.complete
            rw [countP_cons_of_pos hc] at hcount
            rw [hsame]
            show m.retentionLimit ≤ (m.jobs.eraseIdx i).countP Job.complete + 1
            omega
          · exact hmore
        · exact .inl rfl

theorem Manager.add_moves (m : Manager σ) (count : ℕ) (text : Bytes) (asynchronous negated : Bool)
    (hleaves : asynchronous = true → ∀ gone, gone.complete = true → leaves gone) :
    Moves leaves lapses m.toTable (m.add count text asynchronous negated).2.toTable := by
  unfold add
  split
  · exact .refl
  · dsimp only
    have hevict : Moves leaves lapses m.toTable
        (if asynchronous then m.evict m.jobs.length else m).toTable := by
      split
      · rename_i ha
        exact m.evict_moves _ (hleaves ha)
      · exact .refl
    refine hevict.tail (.added _ _ rfl rfl fun p hp => ?_)
    rw [eq_of_mem_replicate hp]

/-- The job that `csh_jobs_add` registers is the first of the list. -/
theorem Manager.add_head (m : Manager σ) (count : ℕ) (text : Bytes) (asynchronous negated : Bool)
    (h : (m.add count text asynchronous negated).1 = true) :
    0 < (m.add count text asynchronous negated).2.jobs.length ∧
      ((m.add count text asynchronous negated).2.job 0).id = m.nextId ∧
      ((m.add count text asynchronous negated).2.job 0).reported = false := by
  have hevict : ∀ (rounds : ℕ) (m : Manager σ), (m.evict rounds).nextId = m.nextId := by
    intro rounds
    induction rounds with
    | zero => exact fun _ => rfl
    | succ rounds ih =>
      intro m
      unfold evict
      split
      · rfl
      · split
        · rfl
        · split
          · exact ih _
          · rfl
  unfold add at h ⊢
  split at h
  · cases h
  · rename_i hcount
    rw [if_neg hcount]
    refine ⟨Nat.zero_lt_succ _, ?_, rfl⟩
    show (if asynchronous then m.evict m.jobs.length else m).nextId = m.nextId
    split
    · exact hevict _ _
    · rfl

/-! ### Launching -/

theorem Table.head_assign {t : Table} (hlt : 0 < t.jobs.length) (stage : ℕ) (pid : ℤ) :
    ((t.modify 0 (Job.assign stage pid)).job 0).id = (t.job 0).id ∧
      ((t.modify 0 (Job.assign stage pid)).job 0).reported = (t.job 0).reported ∧
      0 < (t.modify 0 (Job.assign stage pid)).jobs.length := by
  have hlt' : 0 < (t.modify 0 (Job.assign stage pid)).jobs.length := by
    simpa [modify] using hlt
  rw [job_eq hlt', job_eq hlt]
  refine ⟨?_, ?_, hlt'⟩
  · simp [modify, Job.assign]
  · simp [modify, Job.assign]

/-- Forking enters processes into the job at the head and nothing else. -/
theorem Manager.forkStages_moves (remaining stage : ℕ) (m : Manager σ) (hlt : 0 < m.jobs.length)
    (hreported : (m.job 0).reported = false) :
    Moves leaves lapses m.toTable (m.forkStages host remaining stage).2.toTable ∧
      0 < (m.forkStages host remaining stage).2.jobs.length ∧
      ((m.forkStages host remaining stage).2.job 0).id = (m.job 0).id := by
  induction remaining generalizing stage m with
  | zero => exact ⟨.refl, hlt, rfl⟩
  | succ remaining ih =>
    unfold forkStages
    dsimp only
    split
    · exact ⟨.refl, hlt, rfl⟩
    · rename_i pid _
      obtain ⟨hid, hnot, hlt'⟩ := Table.head_assign hlt stage pid
      have hassign : Moves leaves lapses m.toTable (m.toTable.modify 0 (Job.assign stage pid)) :=
        .single (.assigned _ _ _ _ (.inl hreported))
      generalize hm' : (m.on host.fork).2.modify 0 (Job.assign stage pid) = m'
      have htable : m.toTable.modify 0 (Job.assign stage pid) = m'.toTable := by
        rw [← hm']
        rfl
      rw [htable] at hassign hid hnot hlt'
      generalize hg : (if (m'.job 0).grouped then m'.on fun w => host.setpgid w pid (m'.job 0).pgid
        else (true, m')) = grouped
      have hgroup : m'.toTable = grouped.2.toTable := by
        rw [← hg]
        split <;> rfl
      rw [hgroup] at hassign hid hnot hlt'
      split
      · obtain ⟨hmoves, hlt'', hid'⟩ := ih (stage + 1) grouped.2 hlt' (hnot.trans hreported)
        exact ⟨hassign.trans hmoves, hlt'', hid'.trans hid⟩
      · exact ⟨hassign, hlt', hid⟩

theorem Manager.start_moves (m : Manager σ) (count : ℕ) (asynchronous : Bool)
    (hlt : 0 < m.jobs.length) (hreported : (m.job 0).reported = false) :
    Moves leaves lapses m.toTable (m.start host count asynchronous).2.toTable ∧
      0 < (m.start host count asynchronous).2.jobs.length ∧
      ((m.start host count asynchronous).2.job 0).id = (m.job 0).id := by
  unfold start
  dsimp only
  split
  · exact ⟨.refl, hlt, rfl⟩
  · have hfork : Moves leaves lapses m.toTable _ ∧ _ ∧ _ :=
      forkStages_moves host count 0 (m.on host.barrier).2 hlt hreported
    split
    · exact hfork
    · generalize hg : (if asynchronous then (true, ((m.on host.barrier).2.forkStages host count 0).2)
        else ((m.on host.barrier).2.forkStages host count 0).2.giveTerminal host 0 false) = given
      have htable : ((m.on host.barrier).2.forkStages host count 0).2.toTable = given.2.toTable := by
        rw [← hg]
        split
        · rfl
        · exact (giveTerminal_toTable host _ 0 false).symm
      rw [htable] at hfork
      split <;> exact hfork

theorem Manager.launch_moves (rounds : ℕ) (m : Manager σ) (count : ℕ) (text : Bytes)
    (asynchronous negated : Bool)
    (hleaves : asynchronous = true → ∀ gone, gone.complete = true → leaves gone)
    (hown : ∀ gone : Job, gone.id = m.nextId → leaves gone) :
    Moves leaves lapses m.toTable
      (m.launch host rounds count text asynchronous negated).2.toTable := by
  have hadd : Moves leaves lapses m.toTable _ :=
    m.add_moves count text asynchronous negated hleaves
  have hhead := m.add_head count text asynchronous negated
  unfold launch
  dsimp only
  generalize m.add count text asynchronous negated = added at hadd hhead ⊢
  split
  · exact hadd
  · rename_i hok
    obtain ⟨hlt, hid, hreported⟩ := hhead (by simpa using hok)
    obtain ⟨hstart, hlt', hid'⟩ : Moves leaves lapses added.2.toTable _ ∧ _ ∧ _ :=
      added.2.start_moves host count asynchronous hlt hreported
    generalize added.2.start host count asynchronous = started at hstart hlt' hid' ⊢
    have hstarted := hadd.trans hstart
    have hnew : (started.2.job 0).id = m.nextId := hid'.trans hid
    split
    · exact hstarted.trans
        (started.2.cancel_moves host hlt' fun gone hgone => hown gone (hgone.trans hnew))
    · split
      · exact hstarted.trans (started.2.announce_turns host 0).moves
      · obtain ⟨hforeground, hturned⟩ : Moves leaves lapses started.2.toTable _ ∧ _ :=
          started.2.foreground_moves host rounds false hlt' fun gone hgone _ =>
            hown gone ((congrArg Prod.fst hgone).trans hnew)
        split
        · exact hstarted.trans hforeground
        · rename_i ended hfailed
          have hturns : Turns lapses started.2.toTable _ := hturned hfailed
          have hlast : ((started.2.foreground host rounds 0 false).2.job 0).id = m.nextId :=
            (congrArg Prod.fst (hturns.job_face 0)).trans hnew
          refine (hstarted.trans hforeground).trans (cancel_moves host _ ?_ ?_)
          · rw [hturns.length]
            exact hlt'
          · exact fun gone hgone => hown gone (hgone.trans hlast)
        · exact hstarted.trans hforeground

/-! ### `wait`, `fg` and `bg` -/

theorem Manager.waitAll_moves (rounds remaining i : ℕ) (m : Manager σ)
    (hlt : i + remaining ≤ m.jobs.length)
    (hleaves : ∀ gone, gone.complete = true → leaves gone) :
    Moves leaves lapses m.toTable (m.waitAll host rounds remaining i).2.toTable := by
  induction remaining generalizing i m with
  | zero => exact .refl
  | succ remaining ih =>
    have hwait : Turns lapses m.toTable _ := m.waitJob_turns host rounds i true
    unfold waitAll
    dsimp only
    generalize m.waitJob host rounds i true = waited at hwait ⊢
    have hlength := hwait.length
    split
    · exact hwait.moves
    · split
      · exact Turns.moves (hwait.trans (diagnostic_turns host _ _ _ _))
      · split
        · exact hwait.moves
        · split
          · rename_i hc
            have hi : i < waited.2.jobs.length := by omega
            refine (hwait.moves.trans (Moves.remove hi (hleaves _ hc))).trans
              (ih i (remove waited.2 i) ?_)
            show i + remaining ≤ (waited.2.jobs.eraseIdx i).length
            rw [length_eraseIdx_of_lt hi]
            omega
          · exact hwait.moves.trans (ih (i + 1) _ (by omega))

theorem Manager.waitOperands_moves (rounds : ℕ) (operands : List Bytes) (rc : ℤ) (m : Manager σ)
    (hleaves : ∀ operand ∈ operands, ∀ gone : Job, gone.complete = true →
      names operand gone.face = true → leaves gone) :
    Moves leaves lapses m.toTable (m.waitOperands host rounds operands rc).2.toTable := by
  induction operands generalizing rc m with
  | nil => exact .refl
  | cons operand operands ih =>
    have hrest := fun rc m => ih rc m fun o ho => hleaves o (mem_cons_of_mem _ ho)
    unfold waitOperands
    cases hfind : m.findJob (some operand) true with
    | none => exact (m.diagnostic_turns host _ _ _).moves.trans (hrest _ _)
    | some i =>
      obtain ⟨hi, -, hnames⟩ := findJob_spec hfind
      have hwait : Turns lapses m.toTable _ := m.waitJob_turns host rounds i true
      dsimp only
      generalize m.waitJob host rounds i true = waited at hwait ⊢
      split
      · exact hwait.moves
      · split
        · exact Turns.moves (hwait.trans (diagnostic_turns host _ _ _ _))
        · split
          · exact hwait.moves
          · refine Relation.ReflTransGen.trans ?_ (hrest _ _)
            split
            · rename_i hc
              have hlt : i < waited.2.jobs.length := by
                rw [hwait.length]
                exact hi
              refine hwait.moves.trans (Moves.remove hlt ?_)
              refine hleaves operand mem_cons_self _ hc ?_
              rw [hwait.job_face i]
              exact hnames operand rfl
            · exact hwait.moves

/-- `bg` of a job whose group refuses `SIGCONT` and whose children are all found to have
ended. -/
def Manager.Raced (m : Manager σ) (i : ℕ) : Prop :=
  let signalled := m.on fun w => host.kill w (-(m.job i).pgid) (host.number .cont)
  let polled := signalled.2.poll host
  let collected := polled.2.on (collectDeparted host (polled.2.job i).processes)
  signalled.1.isSome = true ∧ polled.1 = true ∧ ∀ p ∈ collected.1.1, p.live = false

theorem Job.complete_resumed (job : Job) : job.resumed.complete = job.complete := by
  unfold complete resumed
  rw [all_map]
  rfl

theorem Table.job_modify {t : Table} (hi : i < t.jobs.length) (f : Job → Job) :
    (t.modify i f).job i = f (t.job i) := by
  have hi' : i < (t.modify i f).jobs.length := by
    simpa [modify] using hi
  rw [job_eq hi', job_eq hi]
  simp [modify]

/-- A job that `continue_job` leaves completed was found to have ended after its group
refused the signal. -/
theorem Manager.raced_of_continueJob (hi : i < m.jobs.length)
    (hbefore : (m.job i).complete = false) (hok : (m.continueJob host i).1 = true)
    (hafter : ((m.continueJob host i).2.job i).complete = true) : m.Raced host i := by
  unfold continueJob at hok hafter
  unfold Manager.Raced
  dsimp only at hok hafter ⊢
  generalize hs : m.on (fun w => host.kill w (-(m.job i).pgid) (host.number .cont)) = signalled
    at hok hafter ⊢
  have htable : signalled.2.toTable = m.toTable := by
    rw [← hs]
    rfl
  rw [← htable] at hi hbefore
  split at hok
  · rename_i hsent
    rw [if_pos hsent] at hafter
    have hresumed : ((signalled.2.toTable.modify i Job.resumed).job i).complete = true := hafter
    rw [Table.job_modify hi, Job.complete_resumed, hbefore] at hresumed
    cases hresumed
  · rename_i hsent
    have hpoll : Turns False signalled.2.toTable _ := signalled.2.poll_turns host
    generalize signalled.2.poll host = polled at hpoll hok hafter ⊢
    split at hok
    · cases hok
    · rename_i hpolled
      split at hok
      · cases hok
      · rename_i hcomplete
        refine ⟨by simpa [Option.isSome_iff_ne_none] using hsent, by simpa using hpolled, ?_⟩
        generalize hc : polled.2.on (collectDeparted host (polled.2.job i).processes) = collected
          at hcomplete ⊢
        have hlt : i < collected.2.jobs.length := by
          rw [← hc, show (polled.2.on _).2.toTable = polled.2.toTable from rfl, hpoll.length]
          exact hi
        simp only [Bool.or_eq_true, Bool.not_eq_true', not_or, Bool.not_eq_false] at hcomplete
        have hjob := Table.job_modify hlt fun job => { job with processes := collected.1.1 }
        have hall : ((collected.2.toTable.modify i fun job =>
          { job with processes := collected.1.1 }).job i).complete = true := hcomplete.2
        rw [hjob] at hall
        exact Job.complete_iff.mp hall

/-- Whether `bg` of one operand reaches a job started under job control, races, and writes
the job's line. -/
def Manager.RacedOperand (m : Manager σ) (operand : Option Bytes) : Prop :=
  ∃ i, m.findJob operand false = some i ∧ (m.job i).complete = false ∧
    (m.job i).grouped = true ∧ m.Raced host i ∧
      ((((m.continueJob host i).2.modify i fun job => { job with background := true }).promote
        i).printJob host 0 .stdout .short).1 = true

/-- Whether `bg` of an operand after the first races. -/
def Manager.RacedOperands (rounds : ℕ) (name : Builtin) : List Bytes → ℤ → Manager σ → Prop
  | [], _, _ => False
  | operand :: operands, rc, m =>
    m.RacedOperand host (some operand) ∨
      match m.resumeOperand host rounds name (some operand) rc with
      | (none, _) => False
      | (some rc, m) => RacedOperands rounds name operands rc m

theorem Manager.resumeOperand_moves (rounds : ℕ) (name : Builtin) (operand : Option Bytes) (rc : ℤ)
    (m : Manager σ)
    (hleaves : name = .fg → ∀ gone : Job, gone.complete = true →
      (∀ text, operand = some text → names text gone.face = true) → leaves gone)
    (hraced : name ≠ .fg → m.RacedOperand host operand → lapses) :
    Moves leaves lapses m.toTable
      (m.resumeOperand host rounds name operand rc).2.toTable := by
  unfold resumeOperand
  cases hfind : m.findJob operand false with
  | none => exact (m.diagnostic_turns host _ _ _).moves
  | some i =>
    obtain ⟨hi, -, hnames⟩ := findJob_spec hfind
    dsimp only
    split
    · exact (m.diagnostic_turns host _ _ _).moves
    · rename_i hbefore
      split
      · exact (m.diagnostic_turns host _ _ _).moves
      · rename_i hgrouped
        split
        · rename_i hname
          have hforeground : Moves leaves lapses m.toTable _ :=
            (m.foreground_moves host rounds true hi fun gone hgone hc =>
              hleaves hname gone hc fun text htext => hgone ▸ hnames text htext).1
          split
          · exact hforeground
          · exact hforeground.trans (diagnostic_turns host _ _ _ _).moves
          · exact hforeground
        · rename_i hname
          have hcontinue : Turns lapses m.toTable _ := m.continueJob_turns host i
          have hrace := m.raced_of_continueJob host hi (Bool.eq_false_iff.mpr hbefore)
          have hlapse := fun hr hw => hraced hname
            ⟨i, hfind, Bool.eq_false_iff.mpr hbefore, by simpa using hgrouped, hr, hw⟩
          generalize m.continueJob host i = continued at hcontinue hrace hlapse ⊢
          split
          · exact Turns.moves (hcontinue.trans (diagnostic_turns host _ _ _ _))
          · rename_i hok
            have hlt : i < continued.2.jobs.length := by
              rw [hcontinue.length]
              exact hi
            have hback : Turns lapses continued.2.toTable
                (continued.2.modify i fun job => { job with background := true }).toTable :=
              Turns.modify _ i (.of_same rfl rfl rfl rfl rfl)
            generalize hn : continued.2.modify i (fun job => { job with background := true }) = n
              at hback hlapse ⊢
            have hcomplete : (n.job i).complete = (continued.2.job i).complete := by
              have hjob := Table.job_modify hlt fun job => { job with background := true }
              rw [← hn]
              show ((continued.2.toTable.modify i _).job i).complete = _
              rw [hjob]
              rfl
            have hpromote : Moves leaves lapses m.toTable (n.promote i).toTable := by
              refine (Turns.moves (hcontinue.trans hback)).tail (.promoted _ ?_)
              rw [hback.length]
              exact hlt
            have hprint : Turns lapses (n.promote i).toTable
                ((n.promote i).printJob host 0 .stdout .short).2.toTable := by
              show Turns lapses _ (output host (n.promote i) .stdout _).2.toTable
              rw [output_toTable]
              split
              · rename_i hwritten
                refine Turns.lapsed_of_line host _ _ _ fun hc => ?_
                have hafter : (continued.2.job i).complete = true := by
                  rw [← hcomplete]
                  exact hc
                exact hlapse (hrace (by simpa using hok) hafter) hwritten
              · exact .refl
            split
            · exact hpromote.trans hprint.moves
            · exact hpromote.trans
                (Turns.moves (hprint.trans (diagnostic_turns host _ _ _ _)))

theorem Manager.resumeOperands_moves (rounds : ℕ) (name : Builtin) (operands : List Bytes) (rc : ℤ)
    (m : Manager σ)
    (hleaves : name = .fg → ∀ operand ∈ operands, ∀ gone : Job, gone.complete = true →
      names operand gone.face = true → leaves gone)
    (hraced : name ≠ .fg → m.RacedOperands host rounds name operands rc → lapses) :
    Moves leaves lapses m.toTable
      (m.resumeOperands host rounds name operands rc).2.toTable := by
  induction operands generalizing rc m with
  | nil => exact .refl
  | cons operand operands ih =>
    have hfirst : Moves leaves lapses m.toTable _ :=
      m.resumeOperand_moves host rounds name (some operand) rc
        (fun hname gone hc hnames =>
          hleaves hname operand mem_cons_self gone hc (hnames operand rfl))
        fun hname h => hraced hname (.inl h)
    unfold resumeOperands
    unfold Manager.RacedOperands at hraced
    generalize m.resumeOperand host rounds name (some operand) rc = answer at hfirst hraced ⊢
    obtain ⟨rc', m'⟩ := answer
    cases rc' with
    | none => exact hfirst
    | some rc' =>
      exact hfirst.trans (ih rc' m'
        (fun hname o ho => hleaves hname o (mem_cons_of_mem _ ho))
        fun hname h => hraced hname (.inr h))

/-- Whether `bg` races. -/
def Manager.RacedBuiltin (rounds : ℕ) (m : Manager σ) (name : Builtin) (operands : List Bytes) :
    Prop :=
  m.monitor = true ∧
    match operands with
    | [] => m.RacedOperand host none
    | operands => m.RacedOperands host rounds name operands 0

theorem Manager.resumeBuiltin_moves (rounds : ℕ) (m : Manager σ) (name : Builtin)
    (operands : List Bytes)
    (hleaves : name = .fg → ∀ gone : Job, gone.complete = true →
      (operands = [] ∨ ∃ operand ∈ operands, names operand gone.face = true) → leaves gone)
    (hraced : name ≠ .fg → m.RacedBuiltin host rounds name operands → lapses) :
    Moves leaves lapses m.toTable
      (m.resumeBuiltin host rounds name operands).2.toTable := by
  unfold resumeBuiltin
  split
  · exact (m.diagnostic_turns host _ _ _).moves
  · rename_i hmonitor
    have hm : m.monitor = true := by
      simpa using hmonitor
    split
    · exact (m.diagnostic_turns host _ _ _).moves
    · cases operands with
      | nil =>
        exact m.resumeOperand_moves host rounds name none 0
          (fun hname gone hc _ => hleaves hname gone hc (.inl rfl))
          fun hname h => hraced hname ⟨hm, h⟩
      | cons operand operands =>
        exact m.resumeOperands_moves host rounds name _ 0
          (fun hname o ho gone hc hnames => hleaves hname gone hc (.inr ⟨o, ho, hnames⟩))
          fun hname h => hraced hname ⟨hm, h⟩

/-! ### Every call -/

/-- The records a call may free: a completed job that `wait` or `fg` waited for, the one
that is cancelled or removed, completed ones that make room, or the whole table. -/
def Op.Frees (m : Manager σ) (gone : Job) : Op σ → Prop
  | .add _ _ asynchronous _ => asynchronous = true ∧ gone.complete = true
  | .launch _ _ _ asynchronous _ =>
    asynchronous = true ∧ gone.complete = true ∨ gone.id = m.nextId
  | .foreground _ i _ => gone.face = (m.job i).face ∧ gone.complete = true
  | .cancel i => gone.id = (m.job i).id
  | .remove i => gone = m.job i
  | .builtin _ name operands =>
    (name = .wait ∨ name = .fg) ∧ gone.complete = true ∧
      (skipDashes operands = [] ∨
        ∃ operand ∈ skipDashes operands, names operand gone.face = true)
  | .destroy => True
  | _ => False

/-- The calls that may write the end of a job without noting it, or change a job whose
end was reported. -/
def Op.Lapses (m : Manager σ) : Op σ → Prop
  | .assign i _ _ => (m.job i).reported = true
  | .builtin rounds name operands =>
    (m.poll host).1 = true ∧
      (name = .jobs ∧ (m.poll host).2.TornJobs host operands ∨
        name = .bg ∧ (m.poll host).2.RacedBuiltin host rounds name (skipDashes operands))
  | _ => False

theorem Manager.jobsBuiltin_moves (rounds : ℕ) (m : Manager σ) (name : Builtin)
    (operands : List Bytes) :
    Moves (fun gone => (Op.builtin rounds name operands).Frees m gone)
      ((Op.builtin rounds name operands).Lapses host m) m.toTable
      (m.jobsBuiltin host rounds name operands).2.toTable := by
  have hpoll : Moves (fun gone => (Op.builtin rounds name operands).Frees m gone)
      ((Op.builtin rounds name operands).Lapses host m) m.toTable (m.poll host).2.toTable :=
    (m.poll_turns host).moves
  unfold jobsBuiltin
  dsimp only
  split
  · exact hpoll.trans (diagnostic_turns host _ _ _ _).moves
  · rename_i hpolled
    have hp : (m.poll host).1 = true := by
      simpa using hpolled
    cases name with
    | kill => exact hpoll.trans (killBuiltin_turns host _ _).moves
    | set => exact hpoll
    | jobs =>
      exact hpoll.trans (listJobs_turns host _ _ fun h => ⟨hp, .inl ⟨rfl, h⟩⟩).moves
    | wait =>
      simp only [reduceCtorEq, if_false, if_true]
      split
      · rename_i hnone
        exact hpoll.trans (waitAll_moves host rounds _ 0 _ (by omega)
          fun gone hc => ⟨.inl rfl, hc, .inl hnone⟩)
      · rename_i hnone
        exact hpoll.trans (waitOperands_moves host rounds _ 0 _
          fun operand ho gone hc hnames => ⟨.inl rfl, hc, .inr ⟨operand, ho, hnames⟩⟩)
    | fg =>
      simp only [reduceCtorEq, if_false]
      exact hpoll.trans (resumeBuiltin_moves host rounds _ _ _
        (fun _ gone hc hnamed => ⟨.inr rfl, hc, hnamed⟩) fun h => absurd rfl h)
    | bg =>
      simp only [reduceCtorEq, if_false]
      exact hpoll.trans (resumeBuiltin_moves host rounds _ _ _
        (fun h => by cases h) fun _ h => ⟨hp, .inr ⟨rfl, h⟩⟩)

theorem Manager.reap_turns (rounds : ℕ) (m : Manager σ) (wait : Bool) :
    Turns lapses m.toTable (m.reap host rounds wait).toTable := by
  have hfrom : ∀ (remaining i : ℕ) (m : Manager σ),
      Turns lapses m.toTable (m.reapFrom host rounds remaining i).toTable := by
    intro remaining
    induction remaining with
    | zero => exact fun _ _ => .refl
    | succ remaining ih =>
      intro i m
      have hwait : Turns lapses m.toTable _ := m.waitJob_turns host rounds i false
      unfold reapFrom
      dsimp only
      split
      · exact hwait.trans (ih _ _)
      · exact hwait
  have hpoll : Turns lapses m.toTable _ := m.poll_turns host
  unfold reap
  dsimp only
  split
  · exact hpoll.trans (hfrom _ _ _)
  · exact hpoll

/-- The records of a table, freed one after the other. -/
theorem Moves.clear (hleaves : ∀ gone, leaves gone) (t : Table) :
    Moves leaves lapses t
      { t with jobs := [], retained := t.retained - t.jobs.length, freed := t.freed ++ t.jobs } := by
  obtain ⟨jobs, nextId, retained, limit, freed, log⟩ := t
  induction jobs generalizing retained freed with
  | nil =>
    simp only [append_nil, length_nil, Nat.sub_zero]
    exact .refl
  | cons job jobs ih =>
    have hfirst : Move leaves lapses ⟨job :: jobs, nextId, retained, limit, freed, log⟩
        ⟨jobs, nextId, retained - 1, limit, freed ++ [job], log⟩ :=
      .removed ⟨job :: jobs, nextId, retained, limit, freed, log⟩ (Nat.zero_lt_succ _) rfl
        (hleaves job)
    have hrest := ih (retained - 1) (freed ++ [job])
    simp only [append_assoc, singleton_append, Nat.sub_sub, Nat.add_comm 1] at hrest
    exact .head hfirst hrest

/-- **Every call is a sequence of steps**, which frees what the call may free and lapses
only where the call does. -/
theorem Manager.perform_moves (m : Manager σ) (op : Op σ) :
    Moves (fun gone => op.Frees m gone) (op.Lapses host m) m.toTable (m.perform host op).toTable := by
  cases op with
  | add count text asynchronous negated =>
    exact m.add_moves count text asynchronous negated fun ha gone hc => ⟨ha, hc⟩
  | assign i stage pid =>
    refine .single (.assigned _ i stage pid ?_)
    cases hr : (m.job i).reported with
    | false => exact .inl rfl
    | true => exact .inr hr
  | launch rounds count text asynchronous negated =>
    exact m.launch_moves host rounds count text asynchronous negated
      (fun ha gone hc => .inl ⟨ha, hc⟩) fun gone hid => .inr hid
  | announce i =>
    show Moves _ _ _ (if i < m.jobs.length then m.announce host i else m).toTable
    split
    · exact (m.announce_turns host i).moves
    · exact .refl
  | poll => exact (m.poll_turns host).moves
  | notify => exact (m.notify_turns host).moves
  | reap rounds wait => exact (m.reap_turns host rounds wait).moves
  | giveTerminal i resume =>
    show Moves _ _ _ (if i < m.jobs.length then (m.giveTerminal host i resume).2 else m).toTable
    split
    · rw [m.giveTerminal_toTable host]
    · exact .refl
  | foreground rounds i resume =>
    show Moves _ _ _ (if i < m.jobs.length then (m.foreground host rounds i resume).2 else m).toTable
    split
    · rename_i hi
      exact (m.foreground_moves host rounds resume hi fun gone hface hc => ⟨hface, hc⟩).1
    · exact .refl
  | cancel i =>
    show Moves _ _ _ (if i < m.jobs.length then m.cancel host i else m).toTable
    split
    · rename_i hi
      exact m.cancel_moves host hi fun gone hid => hid
    · exact .refl
  | remove i =>
    show Moves _ _ _ (if i < m.jobs.length then remove m i else m).toTable
    split
    · rename_i hi
      exact Moves.remove hi rfl
    · exact .refl
  | builtin rounds name operands => exact m.jobsBuiltin_moves host rounds name operands
  | options options => exact .refl
  | elapse world => exact .refl
  | destroy =>
    have hpoll : Moves (fun gone => Op.destroy.Frees m gone) (Op.destroy.Lapses host m) m.toTable
        (m.poll host).2.toTable := (m.poll_turns host).moves
    exact hpoll.trans (Moves.clear (fun _ => trivial) _)

end Jobs

end CShell
