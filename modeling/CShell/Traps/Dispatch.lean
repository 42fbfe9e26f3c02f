import CShell.Traps.Model
import Mathlib.Tactic

/-!
# Dispatch of pending traps

What one call of `csh_execute_pending_traps` does when no action exits, transfers control
or changes the table.  It always returns, runs the lowest pending signal each time and no
signal twice, and leaves the status alone.  It may return too early: the loop stops when
the *lowest* pending signal has been served, although a higher one that was pending on
entry still waits.

* `Quiet` — the actions the results are about.
* `Progress` — what holds after each round of the loop.
* `Dispatched` — every signal pending on entry has had its action run, once and in order.
* `Undisturbed` — while a signal still waits, no action raises one that was served.
* `executePendingTraps_dispatched` — **the call always returns, and it dispatches what was
  pending exactly when it is undisturbed.**
-/

namespace CShell

namespace Traps

open List
open Execute (Execution Control)

variable {σ : Type} (evaluate : Evaluate σ)

/-- The actions neither exit nor transfer control, the table is as it was, a flag stays
set, and one is only set by a signal that is caught. -/
def Quiet : Prop :=
  ∀ text s, (evaluate text s).1.action = s.action ∧
    (evaluate text s).2.exitRequested = false ∧ (evaluate text s).2.control = .none ∧
    (∀ i, s.pending i = true → (evaluate text s).1.pending i = true) ∧
    ∀ i, (evaluate text s).1.pending i = true → s.pending i = true ∨ s.caught i = true

/-- Only signals that are caught are pending. -/
def Armed (s : Shell σ) : Prop := ∀ i, s.pending i = true → s.caught i = true

/-! ### One round -/

/-- The action of signal `i`, run. -/
def act (i : ℕ) (s : Shell σ) : Shell σ :=
  (evaluateTrapAction evaluate ((s.action i).getD []) s.status {} (s.clear i)).2

theorem Shell.mem_of_firstPending {s : Shell σ} {i : ℕ} (h : s.firstPending = some i) :
    i ∈ numbers ∧ s.pending i = true :=
  ⟨mem_of_find?_eq_some h, find?_some h⟩

/-- The first pending signal is the lowest. -/
theorem Shell.firstPending_le {s : Shell σ} {i k : ℕ} (h : s.firstPending = some i)
    (hk : k ∈ numbers) (hp : s.pending k = true) : i ≤ k := by
  obtain ⟨as, bs, hsplit, hnone⟩ := (find?_eq_some_iff_append.mp h).2
  have hsorted : numbers.Pairwise (· < ·) := pairwise_lt_range'
  rw [hsplit] at hsorted hk
  rcases mem_append.mp hk with hbefore | hafter
  · have hnot := hnone k hbefore
    rw [hp] at hnot
    cases hnot
  · rcases mem_cons.mp hafter with rfl | hafter
    · exact le_rfl
    · have hcons := (pairwise_append.mp hsorted).2.1
      exact (rel_of_pairwise_cons hcons hafter).le

theorem Shell.isSome_firstPending {s : Shell σ} {k : ℕ} (hk : k ∈ numbers)
    (hp : s.pending k = true) : ∃ i, s.firstPending = some i := by
  cases h : s.firstPending with
  | some i => exact ⟨i, rfl⟩
  | none =>
    have hnot := find?_eq_none.mp h k hk
    rw [hp] at hnot
    exact absurd rfl hnot

theorem Shell.takeFrom_eq {s : Shell σ} {i : ℕ} {text : Bytes} (ha : s.action i = some text)
    (list : List ℕ) (h : list.find? s.pending = some i) :
    Shell.takeFrom list s = (some (i, text), s.clear i) := by
  induction list with
  | nil => cases h
  | cons k list ih =>
    unfold takeFrom
    cases hp : s.pending k with
    | false =>
      rw [find?_cons_of_neg (by rw [hp]; exact Bool.false_ne_true)] at h
      exact ih h
    | true =>
      rw [find?_cons_of_pos hp] at h
      obtain rfl : k = i := by simpa using h
      simp only [Bool.not_true, Bool.false_eq_true, if_false, ha]

/-- `csh_traps_take` takes the first pending signal, since it has an action. -/
theorem Shell.take_eq {s : Shell σ} (hs : Armed s) {i : ℕ} (h : s.firstPending = some i) :
    s.take = (some (i, (s.action i).getD []), s.clear i) := by
  have hcaught := hs i (mem_of_firstPending h).2
  unfold caught at hcaught
  cases htext : s.action i with
  | none =>
    rw [htext, Option.any_none, Bool.and_false] at hcaught
    cases hcaught
  | some text => exact takeFrom_eq htext numbers h

section Round

variable {evaluate} (hquiet : Quiet evaluate) {s : Shell σ} (i : ℕ)

include hquiet

/-- A quiet action leaves the result of the interrupted command, and the status. -/
theorem evaluateTrapAction_eq (text : Bytes) (saved : ℤ) (outer : Execution) :
    evaluateTrapAction evaluate text saved outer s =
      (outer, (evaluateTrapAction evaluate text saved {} s).2) ∧
      (evaluateTrapAction evaluate text saved outer s).2.status = saved := by
  obtain ⟨-, hexit, hcontrol, -, -⟩ :=
    hquiet text { s with inTrap := true, trapStatus := saved, status := saved }
  unfold evaluateTrapAction
  dsimp only
  rw [hexit, hcontrol]
  exact ⟨rfl, rfl⟩

theorem act_status : (act evaluate i s).status = s.status :=
  (evaluateTrapAction_eq hquiet _ _ _).2

/-- The shell an action leaves is the one its text leaves, but for the status. -/
theorem act_eq : ∃ after : Shell σ, ∃ text : Bytes,
    (act evaluate i s).action = (evaluate text after).1.action ∧
      (act evaluate i s).pending = (evaluate text after).1.pending ∧
      after.action = s.action ∧ after.pending = (s.clear i).pending := by
  refine ⟨{ s.clear i with inTrap := true, trapStatus := s.status, status := s.status },
    (s.action i).getD [], ?_⟩
  obtain ⟨-, hexit, hcontrol, -, -⟩ := hquiet ((s.action i).getD [])
    { s.clear i with inTrap := true, trapStatus := s.status, status := s.status }
  unfold act evaluateTrapAction
  dsimp only
  rw [hexit, hcontrol]
  exact ⟨rfl, rfl, rfl, rfl⟩

theorem act_action : (act evaluate i s).action = s.action := by
  obtain ⟨after, text, haction, -, hsame, -⟩ := act_eq hquiet (s := s) i
  rw [haction, (hquiet text after).1, hsame]

theorem act_caught (k : ℕ) : (act evaluate i s).caught k = s.caught k := by
  unfold Shell.caught
  rw [act_action hquiet]

/-- A flag other than that of the action stays set. -/
theorem act_pending {k : ℕ} (hk : k ≠ i) (h : s.pending k = true) :
    (act evaluate i s).pending k = true := by
  obtain ⟨after, text, -, hpending, -, hclear⟩ := act_eq hquiet (s := s) i
  rw [hpending]
  refine (hquiet text after).2.2.2.1 k ?_
  rw [hclear]
  show Function.update s.pending i false k = true
  rw [Function.update_of_ne hk]
  exact h

theorem act_armed (hs : Armed s) : Armed (act evaluate i s) := by
  intro k hk
  rw [act_caught hquiet]
  obtain ⟨after, text, -, hpending, hsame, hclear⟩ := act_eq hquiet (s := s) i
  rw [hpending] at hk
  rcases (hquiet text after).2.2.2.2 k hk with hold | hnew
  · rw [hclear] at hold
    refine hs k ?_
    by_cases hki : k = i
    · subst hki
      have hfalse : Function.update s.pending k false k = true := hold
      rw [Function.update_self] at hfalse
      cases hfalse
    · have hkept : Function.update s.pending i false k = true := hold
      rw [Function.update_of_ne hki] at hkept
      exact hkept
  · unfold Shell.caught at hnew ⊢
    rw [hsame] at hnew
    exact hnew

/-- A round of the loop that runs an action. -/
theorem dispatchLoop_round (hs : Armed s) {i : ℕ} (hnext : s.firstPending = some i)
    {trace : Trace σ} (hi : i ∉ trace.served) (fuel : ℕ) (result : Execution) :
    dispatchLoop evaluate (fuel + 1) trace result s =
      if leaving result then some ((i, act evaluate i s) :: trace, result, act evaluate i s)
      else dispatchLoop evaluate fuel ((i, act evaluate i s) :: trace) result (act evaluate i s) := by
  have hrun := (evaluateTrapAction_eq hquiet (s := s.clear i) ((s.action i).getD []) s.status result).1
  rw [dispatchLoop, hnext]
  dsimp only
  rw [if_neg hi, Shell.take_eq hs hnext]
  dsimp only
  rw [show (s.clear i).status = s.status from rfl, hrun]
  rfl

end Round

/-! ### The loop -/

/-- What holds between the rounds of the loop that began in `s₀`: no signal was served
twice, one that was pending on entry and has not been served waits and is above all that
were, and a signal raised after it was served is left pending. -/
structure Progress (s₀ : Shell σ) (trace : Trace σ) (s : Shell σ) : Prop where
  armed : Armed s
  status : s.status = s₀.status
  nodup : trace.served.Nodup
  range : ∀ i ∈ trace.served, i ∈ numbers
  waits : ∀ e, s₀.pending e = true → e ∉ trace.served → s.pending e = true
  below : ∀ e, s₀.pending e = true → e ∉ trace.served → ∀ i ∈ trace.served, i < e
  order : (trace.served.filter s₀.pending).Pairwise (· > ·)
  left : ∀ later entry earlier, trace = later ++ entry :: earlier →
    ∀ i ∈ Trace.served (entry :: earlier), entry.2.pending i = true → s.pending i = true

theorem Progress.start {s : Shell σ} (hs : Armed s) : Progress s [] s where
  armed := hs
  status := rfl
  nodup := nodup_nil
  range := fun _ h => by cases h
  waits := fun _ h _ => h
  below := fun _ _ _ _ h => by cases h
  order := List.Pairwise.nil
  left := by
    intro later entry earlier h
    have hlength := congrArg length h
    simp at hlength

theorem Armed.mem {s : Shell σ} (hs : Armed s) {i : ℕ} (h : s.pending i = true) : i ∈ numbers := by
  have hcaught := hs i h
  unfold Shell.caught at hcaught
  exact of_decide_eq_true (Bool.and_eq_true_iff.mp hcaught).1

variable {evaluate} (hquiet : Quiet evaluate) {s₀ s : Shell σ} {trace : Trace σ}

include hquiet in
/-- One round. -/
theorem Progress.round (h : Progress s₀ trace s) {i : ℕ} (hnext : s.firstPending = some i)
    (hi : i ∉ trace.served) :
    Progress s₀ ((i, act evaluate i s) :: trace) (act evaluate i s) where
  armed := act_armed hquiet i h.armed
  status := (act_status hquiet i).trans h.status
  nodup := nodup_cons.mpr ⟨hi, h.nodup⟩
  range := by
    intro k hk
    rcases mem_cons.mp hk with rfl | hk
    · exact (Shell.mem_of_firstPending hnext).1
    · exact h.range k hk
  waits := by
    intro e he hnot
    have hparts : e ≠ i ∧ e ∉ trace.served := not_or.mp fun hor => hnot (mem_cons.mpr hor)
    exact act_pending hquiet i hparts.1 (h.waits e he hparts.2)
  below := by
    intro e he hnot k hk
    have hparts : e ≠ i ∧ e ∉ trace.served := not_or.mp fun hor => hnot (mem_cons.mpr hor)
    rcases mem_cons.mp hk with rfl | hk
    · have hpending := h.waits e he hparts.2
      have hle := Shell.firstPending_le hnext (h.armed.mem hpending) hpending
      exact lt_of_le_of_ne hle hparts.1.symm
    · exact h.below e he hparts.2 k hk
  order := by
    show ((i :: trace.served).filter s₀.pending).Pairwise (· > ·)
    cases he : s₀.pending i with
    | false =>
      rw [filter_cons_of_neg (by rw [he]; exact Bool.false_ne_true)]
      exact h.order
    | true =>
      rw [filter_cons_of_pos he]
      refine List.Pairwise.cons (fun k hk => ?_) h.order
      exact h.below i he hi k (mem_of_mem_filter hk)
  left := by
    intro later entry earlier hsplit k hk hpending
    cases later with
    | nil =>
      obtain ⟨rfl, rfl⟩ := cons.inj hsplit
      exact hpending
    | cons first later =>
      have hrest : trace = later ++ entry :: earlier := (cons.inj hsplit).2
      refine act_pending hquiet i ?_ (h.left later entry earlier hrest k hk hpending)
      rintro rfl
      refine hi ?_
      unfold Trace.served at hk ⊢
      rw [hrest, map_append]
      exact mem_append_right _ hk

/-- A number is served once, so that there are less rounds than the limit. -/
theorem Progress.length_lt (h : Progress s₀ trace s) : trace.length < trapLimit := by
  have hle : trace.served.length ≤ numbers.length :=
    (subperm_of_subset h.nodup h.range).length_le
  have hnumbers : numbers.length = 127 := length_range'
  have hserved : trace.served.length = trace.length := length_map _
  have hlimit : trapLimit = 128 := rfl
  omega

include hquiet in
/-- The loop returns, in a state that its rounds have led to. -/
theorem dispatchLoop_progress (fuel : ℕ) (h : Progress s₀ trace s)
    (hfuel : trapLimit ≤ fuel + trace.length) (result : Execution) :
    ∃ trace' s', dispatchLoop evaluate fuel trace result s = some (trace', result, s') ∧
      Progress s₀ trace' s' ∧ trace <:+ trace' := by
  induction fuel generalizing trace s with
  | zero =>
    have hlt := h.length_lt
    omega
  | succ fuel ih =>
    cases hnext : s.firstPending with
    | none =>
      refine ⟨trace, s, ?_, h, suffix_rfl⟩
      rw [dispatchLoop, hnext]
    | some i =>
      by_cases hi : i ∈ trace.served
      · refine ⟨trace, s, ?_, h, suffix_rfl⟩
        rw [dispatchLoop, hnext]
        dsimp only
        rw [if_pos hi]
      · have hround := h.round hquiet hnext hi
        rw [dispatchLoop_round hquiet h.armed hnext hi]
        cases hleaving : leaving result with
        | true => exact ⟨_, _, by simp, hround, suffix_cons _ _⟩
        | false =>
          obtain ⟨trace', s', hloop, hprogress, hsuffix⟩ := ih hround (by
            rw [length_cons]
            omega)
          exact ⟨trace', s', by simpa using hloop, hprogress, (suffix_cons _ _).trans hsuffix⟩

/-! ### What dispatch is for -/

/-- Every signal that was pending in `s₀` has had its action run exactly once, in
increasing order; the status is what it was; and a signal raised after its own action ran
is left pending. -/
def Dispatched (s₀ : Shell σ) (trace : Trace σ) (s : Shell σ) : Prop :=
  (∀ e, s₀.pending e = true → trace.served.count e = 1) ∧
    (trace.served.reverse.filter s₀.pending).Pairwise (· < ·) ∧
    s.status = s₀.status ∧
    ∀ later entry earlier, trace = later ++ entry :: earlier →
      ∀ i ∈ Trace.served (entry :: earlier), entry.2.pending i = true → s.pending i = true

theorem Progress.dispatched_iff (h : Progress s₀ trace s) :
    Dispatched s₀ trace s ↔ ∀ e, s₀.pending e = true → e ∈ trace.served := by
  constructor
  · intro hd e he
    refine count_pos_iff.mp ?_
    rw [hd.1 e he]
    exact Nat.one_pos
  · intro hall
    refine ⟨fun e he => count_eq_one_of_mem h.nodup (hall e he), ?_, h.status, h.left⟩
    rw [filter_reverse, pairwise_reverse]
    exact h.order

/-- The lowest pending signal that has not been served. -/
def Shell.waiting (s : Shell σ) (served : List ℕ) : Option ℕ :=
  numbers.find? fun i => s.pending i && decide (i ∉ served)

variable (evaluate) in
/-- A dispatcher that goes on as long as a signal waits: it serves the lowest one. -/
def serve (c : List ℕ × Shell σ) : List ℕ × Shell σ :=
  match c.2.waiting c.1 with
  | none => c
  | some i => (i :: c.1, act evaluate i c.2)

variable (evaluate) in
/-- While a signal that was pending on entry still waits, the interrupted command is not
being left and no action raises a signal that was served. -/
def UndisturbedFrom (entry : ℕ → Bool) (leaves : Bool) (c : List ℕ × Shell σ) : Prop :=
  ∀ n i, ((serve evaluate)^[n] c).2.waiting ((serve evaluate)^[n] c).1 = some i →
    (∃ e, entry e = true ∧ e ≠ i ∧ e ∉ ((serve evaluate)^[n] c).1) →
    leaves = false ∧
      ∀ k ∈ i :: ((serve evaluate)^[n] c).1,
        (act evaluate i ((serve evaluate)^[n] c).2).pending k = false

variable (evaluate) in
/-- The dispatch of what is pending in `s` is undisturbed: it is not asked for by an
action of a dispatch under way, unless nothing is pending, and goes on undisturbed. -/
def Undisturbed (result : Execution) (s : Shell σ) : Prop :=
  (s.dispatching = true → ∀ e, s.pending e = false) ∧
    UndisturbedFrom evaluate s.pending (leaving result) ([], { s with dispatching := true })

/-! ### When dispatch ends too early -/

/-- With no served signal pending, the lowest pending signal is the lowest waiting one. -/
theorem Shell.waiting_eq {served : List ℕ} (h : ∀ k ∈ served, s.pending k = false) :
    s.waiting served = s.firstPending := by
  unfold waiting firstPending
  congr 1
  funext i
  by_cases hi : i ∈ served
  · rw [h i hi, Bool.false_and]
  · rw [decide_eq_true hi, Bool.and_true]

variable (evaluate) in
theorem serve_eq {served : List ℕ} {i : ℕ} (h : s.waiting served = some i) :
    serve evaluate (served, s) = (i :: served, act evaluate i s) := by
  unfold serve
  dsimp only
  rw [h]

variable (evaluate) in
/-- What was served stays so. -/
theorem subset_serve (n : ℕ) (c : List ℕ × Shell σ) : c.1 ⊆ ((serve evaluate)^[n] c).1 := by
  induction n generalizing c with
  | zero => exact List.Subset.refl _
  | succ n ih =>
    rw [Function.iterate_succ_apply]
    refine List.Subset.trans ?_ (ih (serve evaluate c))
    unfold serve
    split
    · exact List.Subset.refl _
    · exact subset_cons_self _ _

/-- Nothing is left to disturb once all is served. -/
theorem UndisturbedFrom.of_served {entry : ℕ → Bool} {leaves : Bool} {c : List ℕ × Shell σ}
    (h : ∀ e, entry e = true → e ∈ c.1) : UndisturbedFrom evaluate entry leaves c := by
  rintro n i - ⟨e, he, -, hnot⟩
  exact absurd (subset_serve evaluate n c (h e he)) hnot

/-- The first step, and the rest. -/
theorem undisturbedFrom_iff {entry : ℕ → Bool} {leaves : Bool} {served : List ℕ} {i : ℕ}
    (hwaiting : s.waiting served = some i) :
    UndisturbedFrom evaluate entry leaves (served, s) ↔
      ((∃ e, entry e = true ∧ e ∉ i :: served) →
        leaves = false ∧ ∀ k ∈ i :: served, (act evaluate i s).pending k = false) ∧
      UndisturbedFrom evaluate entry leaves (i :: served, act evaluate i s) := by
  constructor
  · intro h
    refine ⟨?_, ?_⟩
    · rintro ⟨e, he, hnot⟩
      have hparts : e ≠ i ∧ e ∉ served := not_or.mp fun hor => hnot (mem_cons.mpr hor)
      exact h 0 i hwaiting ⟨e, he, hparts⟩
    · intro n
      have hshift := h (n + 1)
      rw [Function.iterate_succ_apply, serve_eq evaluate hwaiting] at hshift
      exact hshift
  · rintro ⟨hfirst, hrest⟩ n
    cases n with
    | zero =>
      rintro k hk ⟨e, he, hne, hnot⟩
      obtain rfl : i = k := by
        rw [show s.waiting served = some k from hk] at hwaiting
        simpa using hwaiting.symm
      refine hfirst ⟨e, he, fun hmem => ?_⟩
      rcases mem_cons.mp hmem with h | h
      · exact hne h
      · exact hnot h
    | succ n =>
      rw [Function.iterate_succ_apply, serve_eq evaluate hwaiting]
      exact hrest n

include hquiet in
/-- A served signal that is pending keeps every higher one from being served. -/
theorem dispatchLoop_blocked (fuel : ℕ) (h : Progress s₀ trace s) {k e : ℕ}
    (hk : k ∈ trace.served) (hpending : s.pending k = true) (he : e ∉ trace.served) (hlt : k < e)
    {result result' : Execution} {trace' : Trace σ} {s' : Shell σ}
    (hloop : dispatchLoop evaluate fuel trace result s = some (trace', result', s')) :
    e ∉ trace'.served := by
  induction fuel generalizing trace s with
  | zero => cases hloop
  | succ fuel ih =>
    obtain ⟨i, hnext⟩ := Shell.isSome_firstPending (h.range k hk) hpending
    by_cases hi : i ∈ trace.served
    · rw [dispatchLoop, hnext] at hloop
      dsimp only at hloop
      rw [if_pos hi] at hloop
      obtain ⟨rfl, -⟩ : trace = trace' ∧ _ := by simpa using hloop
      exact he
    · have hle := Shell.firstPending_le hnext (h.range k hk) hpending
      have hne : e ∉ Trace.served ((i, act evaluate i s) :: trace) := by
        intro hmem
        rcases mem_cons.mp hmem with rfl | hmem
        · omega
        · exact he hmem
      rw [dispatchLoop_round hquiet h.armed hnext hi] at hloop
      split at hloop
      · obtain ⟨rfl, -⟩ : (i, act evaluate i s) :: trace = trace' ∧ _ := by simpa using hloop
        exact hne
      · have hki : k ≠ i := fun heq => hi (heq ▸ hk)
        exact ih (h.round hquiet hnext hi) (mem_cons_of_mem _ hk)
          (act_pending hquiet i hki hpending) hne hloop

include hquiet in
/-- The loop serves all that was pending exactly when it is undisturbed. -/
theorem dispatchLoop_serves (fuel : ℕ) (h : Progress s₀ trace s)
    (hfuel : trapLimit ≤ fuel + trace.length)
    (hclear : (∃ e, s₀.pending e = true ∧ e ∉ trace.served) →
      ∀ k ∈ trace.served, s.pending k = false)
    {result result' : Execution} {trace' : Trace σ} {s' : Shell σ}
    (hloop : dispatchLoop evaluate fuel trace result s = some (trace', result', s')) :
    (∀ e, s₀.pending e = true → e ∈ trace'.served) ↔
      UndisturbedFrom evaluate s₀.pending (leaving result) (trace.served, s) := by
  induction fuel generalizing trace s with
  | zero => cases hloop
  | succ fuel ih =>
    have hmono : ∀ e ∈ trace.served, e ∈ trace'.served := by
      obtain ⟨trace'', s'', hloop', -, hsuffix⟩ := dispatchLoop_progress hquiet _ h hfuel result
      rw [hloop] at hloop'
      obtain ⟨rfl, -⟩ : trace' = trace'' ∧ _ := by simpa using hloop'
      exact fun e he => (hsuffix.map Prod.fst).subset he
    by_cases hwaits : ∃ e, s₀.pending e = true ∧ e ∉ trace.served
    · -- the signal that waits is pending, so that a round is made
      obtain ⟨e, he, hnot⟩ := hwaits
      have hpending := h.waits e he hnot
      have hnone := hclear ⟨e, he, hnot⟩
      obtain ⟨i, hnext⟩ := Shell.isSome_firstPending (h.armed.mem hpending) hpending
      have hi : i ∉ trace.served := by
        intro hmem
        have hfalse := hnone i hmem
        rw [(Shell.mem_of_firstPending hnext).2] at hfalse
        cases hfalse
      have hwaiting : s.waiting trace.served = some i := (Shell.waiting_eq hnone).trans hnext
      have hround := h.round hquiet hnext hi
      rw [undisturbedFrom_iff hwaiting]
      rw [dispatchLoop_round hquiet h.armed hnext hi] at hloop
      cases hleaving : leaving result with
      | true =>
        rw [hleaving, if_pos rfl] at hloop
        obtain ⟨rfl, -⟩ : (i, act evaluate i s) :: trace = trace' ∧ _ := by simpa using hloop
        constructor
        · intro hall
          refine ⟨?_, UndisturbedFrom.of_served hall⟩
          rintro ⟨e', he', hnot'⟩
          exact absurd (hall e' he') hnot'
        · rintro ⟨hfirst, -⟩ e' he'
          by_contra hnot'
          cases (hfirst ⟨e', he', hnot'⟩).1
      | false =>
        rw [hleaving, if_neg Bool.false_ne_true] at hloop
        have hfuel' : trapLimit ≤ fuel + ((i, act evaluate i s) :: trace).length := by
          rw [length_cons]
          omega
        constructor
        · intro hall
          have hfirst : (∃ e, s₀.pending e = true ∧ e ∉ i :: trace.served) →
              ∀ k ∈ i :: trace.served, (act evaluate i s).pending k = false := by
            rintro ⟨e', he', hnot'⟩ k hk
            rw [Bool.eq_false_iff]
            intro hraised
            exact dispatchLoop_blocked hquiet fuel hround hk hraised hnot'
              (hround.below e' he' hnot' k hk) hloop (hall e' he')
          have hrest := (ih hround hfuel' hfirst hloop).mp hall
          rw [hleaving] at hrest
          exact ⟨fun hwait => ⟨rfl, hfirst hwait⟩, hrest⟩
        · rintro ⟨hfirst, hrest⟩
          rw [← hleaving] at hrest
          exact (ih hround hfuel' (fun hwait => (hfirst hwait).2) hloop).mpr hrest
    · have hall : ∀ e, s₀.pending e = true → e ∈ trace.served := by
        intro e he
        by_contra hnot
        exact hwaits ⟨e, he, hnot⟩
      constructor
      · intro _
        exact UndisturbedFrom.of_served hall
      · intro _ e he
        exact hmono e (hall e he)

include hquiet in
/-- **A call returns, and it dispatches what was pending exactly when it is undisturbed.** -/
theorem executePendingTraps_dispatched (hs : Armed s) (result : Execution) :
    ∃ trace s', executePendingTraps evaluate result s = some (trace, result, s') ∧
      (Dispatched s trace s' ↔ Undisturbed evaluate result s) := by
  unfold executePendingTraps Undisturbed
  cases hd : s.dispatching with
  | true =>
    refine ⟨[], s, rfl, ?_⟩
    rw [(Progress.start hs).dispatched_iff]
    constructor
    · intro hall
      refine ⟨fun _ e => ?_, UndisturbedFrom.of_served hall⟩
      rw [Bool.eq_false_iff]
      intro he
      cases hall e he
    · rintro ⟨hnone, -⟩ e he
      rw [hnone rfl e] at he
      cases he
  | false =>
    have hstart : Progress { s with dispatching := true } [] { s with dispatching := true } :=
      .start hs
    obtain ⟨trace, s', hloop, hprogress, -⟩ :=
      dispatchLoop_progress hquiet trapLimit hstart (Nat.le_add_right _ _) result
    refine ⟨trace, { s' with dispatching := false }, ?_, ?_⟩
    · rw [if_neg Bool.false_ne_true, hloop]
      rfl
    · have hserves := dispatchLoop_serves hquiet trapLimit hstart (Nat.le_add_right _ _)
        (fun _ k hk => by cases hk) hloop
      have hdispatched : Dispatched s trace { s' with dispatching := false } ↔
          ∀ e, s.pending e = true → e ∈ trace.served := hprogress.dispatched_iff
      rw [hdispatched]
      constructor
      · intro hall
        exact ⟨fun h => (by cases h), hserves.mp hall⟩
      · rintro ⟨-, hrest⟩
        exact hserves.mpr hrest

/-- Actions that raise the signals `raised`, where these are caught. -/
def raising (raised : List ℕ) : Evaluate Unit := fun _ s =>
  ({ s with pending := fun i => s.pending i || (decide (i ∈ raised) && s.caught i) }, {})

theorem quiet_raising (raised : List ℕ) : Quiet (raising raised) := by
  intro text s
  refine ⟨rfl, rfl, rfl, ?_, ?_⟩
  · intro i hi
    show (s.pending i || _) = true
    rw [hi, Bool.true_or]
  · intro i hi
    rcases Bool.or_eq_true_iff.mp (show (s.pending i || _) = true from hi) with h | h
    · exact .inl h
    · exact .inr (Bool.and_eq_true_iff.mp h).2

/-- A shell that traps `HUP` and `INT`, both of them pending. -/
def hupAndInt : Shell Unit where
  action i := if i = 1 ∨ i = 2 then some (ascii ":") else none
  pending i := decide (i = 1 ∨ i = 2)
  status := 7
  world := ()

theorem armed_hupAndInt : Armed hupAndInt := by
  intro i hi
  have hcases : i = 1 ∨ i = 2 := of_decide_eq_true hi
  rcases hcases with rfl | rfl <;> decide

/-- Actions that raise nothing: both run, and the theorem says that this is no accident. -/
theorem executePendingTraps_dispatched_both :
    (executePendingTraps (raising []) {} hupAndInt).map (fun r => r.1.served) = some [2, 1] ∧
      ∃ trace s', executePendingTraps (raising []) {} hupAndInt = some (trace, {}, s') ∧
        (Dispatched hupAndInt trace s' ↔ Undisturbed (raising []) {} hupAndInt) :=
  ⟨by decide +kernel, executePendingTraps_dispatched (quiet_raising []) armed_hupAndInt {}⟩

/-- An action of `HUP` that raises `HUP` ends the dispatch: `INT`, pending on entry, has
not been served. -/
theorem executePendingTraps_skips :
    Quiet (raising [1]) ∧ Armed hupAndInt ∧
      ∃ trace result s', executePendingTraps (raising [1]) {} hupAndInt = some (trace, result, s') ∧
        hupAndInt.pending 2 = true ∧ trace.served = [1] ∧ ¬Dispatched hupAndInt trace s' := by
  have hserved : (executePendingTraps (raising [1]) {} hupAndInt).map (fun r => r.1.served) =
      some [1] := by decide +kernel
  obtain ⟨⟨trace, result, s'⟩, hrun, htrace⟩ := Option.map_eq_some_iff.mp hserved
  refine ⟨quiet_raising [1], armed_hupAndInt, trace, result, s', hrun, rfl, htrace, ?_⟩
  intro hdispatched
  have hcount := hdispatched.1 2 rfl
  rw [show trace.served = [1] from htrace] at hcount
  cases hcount

end Traps

end CShell
