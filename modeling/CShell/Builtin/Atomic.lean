import CShell.Builtin.Directory

/-!
# A change of directory takes place or it does not

Nothing moves before `chdir`; behind it, either both variables follow or the saved
directory and the saved state come back.  Each part of the builtin is specified by what it
finds out while the shell state and the working directory stay, and the parts are put
together by the rules of programs.

## Main definitions

* `Quiet s d x Q` — `x` leaves the state `s` and the directory `d`, and finds out `Q`.
* `Answers want r` — what a call says is the case.
* `Doubted`, `Lost` — the calls of `current` that fail.
* `Former host w old` — the logical directory a change begins in.
* `Changed` — what a successful change leaves.

## Main results

* `meets_current` — the former directory is trusted, or asked for, or not to be found.
* `meets_enter`, `meets_publish` — the change, and the update of the variables.
* `directory_atomic` — **`cd` changes directory and variables together, or neither.**

## References

`src/builtin.c` (`directory`), `src/state.c` (`csh_state_restore`).
-/

namespace CShell
namespace Directory

open Components Program

variable {F D α β : Type} {s : State F} {d : D} {host : Host D}

/-! ### Actions that leave everything as it is -/

/-- The shell state and the working directory. -/
structure At (s : State F) (d : D) (w : World F D) : Prop where
  state : w.state = s
  cwd : w.cwd = d

/-- The action leaves the state and the directory, and returns what meets `Q`. -/
def Quiet (s : State F) (d : D) (x : Action F D α) (Q : α → Prop) : Prop :=
  Meets (At s d) x (fun a w => At s d w ∧ Q a) fun _ w => At s d w

theorem Quiet.pure {Q : α → Prop} {a : α} (h : Q a) : Quiet s d (Pure.pure a) Q :=
  Meets.pure fun _ hw => ⟨hw, h⟩

theorem Quiet.bind {Q : α → Prop} {R : β → Prop} {x : Action F D α} {f : α → Action F D β}
    (hx : Quiet s d x Q) (hf : ∀ a, Q a → Quiet s d (f a) R) : Quiet s d (x >>= f) R :=
  Meets.bind hx fun a w hw => hf a hw.2 w hw.1

/-- Behind an action that leaves everything as it is. -/
theorem Quiet.followed {Q : α → Prop} {R : β → World F D → Prop} {x : Action F D α}
    {f : α → Action F D β} (hx : Quiet s d x Q)
    (hf : ∀ a, Q a → Meets (At s d) (f a) R fun failure w => failure = .failed → At s d w) :
    Meets (At s d) (x >>= f) R fun failure w => failure = .failed → At s d w := by
  refine .bind (Q := fun a w => At s d w ∧ Q a) ?_ fun a w hw => hf a hw.2 w hw.1
  exact Meets.weaken hx (fun _ h => h) (fun _ _ h => h) fun _ _ h _ => h

theorem Quiet.imp {Q R : α → Prop} {x : Action F D α} (h : Quiet s d x Q) (hi : ∀ a, Q a → R a) :
    Quiet s d x R :=
  Meets.weaken h (fun _ hw => hw) (fun a _ hw => ⟨hw.1, hi a hw.2⟩) fun _ _ hw => hw

/-- A value is read off the shell state. -/
theorem quiet_valueOf (name : String) :
    Quiet s d (gets fun w : World F D => valueOf w name)
      fun value => value = (s.getVariable (ascii name)).2.value := by
  refine Meets.gets fun w hw => ⟨hw, ?_⟩
  rw [valueOf, hw.state]

theorem quiet_report (name message : Bytes) :
    Quiet s d (report name message : Action F D Unit) fun _ => True :=
  Meets.modify fun _ hw => ⟨⟨hw.state, hw.cwd⟩, trivial⟩

theorem meets_refuse (name message : Bytes) (Q : α → World F D → Prop) :
    Meets (At s d) (refuse name message : Action F D α) Q fun _ w => At s d w :=
  .bind (quiet_report name message) fun _ => Meets.stop fun _ hw => hw.1

theorem meets_giveUp (Q : α → World F D → Prop) :
    Meets (At s d) (giveUp : Action F D α) Q fun _ w => At s d w := meets_refuse _ _ Q

/-! ### System calls -/

/-- What a call finds is the case. -/
def Answers (want : Option α) (r : Except Errno α) : Prop := ∀ a, r = .ok a → want = some a

theorem Answers.error (want : Option α) (errno : Errno) : Answers want (.error errno) :=
  fun _ h => by cases h

/-- The call that was the `n`-th finds out what is the case, or fails. -/
theorem meets_call (path : Bytes) (answer : D → Option α) (n : ℕ) (E : Failure → World F D → Prop) :
    Meets (fun w => At s d w ∧ w.calls = n) (call host path answer : Action F D (Except Errno α))
      (fun r w => (At s d w ∧ w.calls = n + 1) ∧ Answers (answer d) r ∧
        ∀ errno, r = .error errno → host.fault n path ≠ none ∨ answer d = none) E := by
  refine Meets.update fun w hw => ?_
  obtain ⟨⟨rfl, rfl⟩, rfl⟩ := hw
  refine ⟨⟨⟨rfl, rfl⟩, rfl⟩, ?_⟩
  dsimp only
  cases host.fault w.calls path with
  | some errno => exact ⟨.error _ _, fun _ _ => .inl (by simp)⟩
  | none =>
    cases answer w.cwd with
    | some a => exact ⟨fun b hb => (by cases hb; rfl), fun _ he => (by cases he)⟩
    | none => exact ⟨.error _ _, fun _ _ => .inr rfl⟩

theorem quiet_call (path : Bytes) (answer : D → Option α) :
    Quiet s d (call host path answer : Action F D (Except Errno α)) (Answers (answer d)) :=
  fun w hw => (meets_call path answer w.calls fun _ w => At s d w).weaken (fun _ h => h)
    (fun _ _ h => ⟨h.1.1, h.2.1⟩) (fun _ _ h => h) w ⟨hw, rfl⟩

/-- `chdir` moves where the path leads to, or not at all. -/
theorem meets_moveTo (path : Bytes) (target : D → Option D) :
    Meets (At s d) (moveTo host path target : Action F D (Except Errno Unit))
      (fun r w => (r = .ok () ∧ ∃ d', target d = some d' ∧ At s d' w) ∨ (∃ errno, r = .error errno) ∧ At s d w)
      fun _ w => At s d w := by
  refine Meets.update fun w hw => ?_
  obtain ⟨rfl, rfl⟩ := hw
  cases host.fault w.calls path with
  | some errno => exact .inr ⟨⟨errno, rfl⟩, rfl, rfl⟩
  | none =>
    cases htarget : target w.cwd with
    | none => exact .inr ⟨⟨.other, rfl⟩, rfl, rfl⟩
    | some d' => exact .inl ⟨rfl, d', rfl, rfl, rfl⟩

/-! ### Directories by their paths -/

/-- The component as a path of its own. -/
theorem resolve_part (tree : Tree D) (d : D) {part : Bytes} (h : IsName sep part) :
    tree.resolve d part = tree.enter d part := by
  have hne : part.isEmpty = false := by simpa using h.nonempty
  have hhead : part.head? ≠ some sep := by
    obtain ⟨a, rest, rfl⟩ := List.exists_cons_of_ne_nil h.nonempty
    exact fun he => h.free (Option.some.inj he ▸ List.mem_cons_self)
  rw [Tree.resolve, hne, if_neg (by simp), if_neg hhead, components_name h, List.foldlM_cons]
  cases tree.enter d part <;> rfl

theorem resolve_dot (tree : Tree D) (d : D) : tree.resolve d dot = some d := by
  rw [resolve_part tree d ⟨by decide, by decide⟩, Tree.enter, if_pos rfl]

/-- An absolute path leads to the same place from anywhere. -/
theorem resolve_absolute (tree : Tree D) {path : Bytes} (h : path.head? = some sep) (d d' : D) :
    tree.resolve d path = tree.resolve d' path := by
  rw [Tree.resolve, Tree.resolve, if_pos h, if_pos h]

theorem names_of_resolve {tree : Tree D} {path : Bytes} {a : D} (habsolute : path.head? = some sep)
    (h : tree.resolve d path = some a) : tree.Names path a :=
  ⟨habsolute, fun cwd => (resolve_absolute tree habsolute cwd d).trans h⟩

theorem quiet_walk {parts : List Bytes} (hparts : ∀ part ∈ parts, IsName sep part) (a : D) :
    Quiet s d (walk host a parts : Action F D (Except Errno D))
      (Answers (parts.foldlM host.tree.enter a)) := by
  induction parts generalizing a with
  | nil => exact .pure fun b hb => (by cases hb; rfl)
  | cons part parts ih =>
    have hpart := hparts part List.mem_cons_self
    refine .bind (quiet_call part fun _ => host.tree.resolve a part) fun r hr => ?_
    rw [resolve_part host.tree a hpart] at hr
    cases r with
    | error errno => exact .pure (.error _ _)
    | ok b =>
      rw [List.foldlM_cons, hr b rfl]
      exact ih (fun part hp => hparts part (List.mem_cons_of_mem _ hp)) b

/-- The directory `directory_handle` walks from. -/
theorem resolve_first (tree : Tree D) (d : D) (path : Bytes) :
    tree.resolve d (if path.head? = some sep then rootOf path else dot) =
      some (if path.head? = some sep then tree.root else d) := by
  split
  · rcases isRoot_rootOf path with hroot | hroot <;> rw [hroot] <;> rfl
  · exact resolve_dot tree d

theorem quiet_directoryHandle (path : Bytes) :
    Quiet s d (directoryHandle host path : Action F D (Except Errno D))
      fun r => path ≠ [] → Answers (host.tree.resolve d path) r := by
  refine .bind (quiet_call path _) fun r hr => ?_
  match r, hr with
  | .ok a, hr => exact .pure fun _ => hr
  | .error .other, hr => exact .pure fun _ => hr
  | .error .nameTooLong, _ =>
    refine .bind (quiet_call _ _) fun r hr => ?_
    rw [resolve_first] at hr
    cases r with
    | error errno => exact .pure fun _ => .error _ _
    | ok a =>
      have hstart := Option.some.inj (hr a rfl)
      refine (quiet_walk (fun part hp => isName_of_mem hp) a).imp fun r hwalk hne => ?_
      rw [Tree.resolve, if_neg (by simpa using hne), hstart]
      exact hwalk

theorem quiet_directoryStat (path : Bytes) :
    Quiet s d (directoryStat host path : Action F D (Except Errno D))
      fun r => path ≠ [] → Answers (host.tree.resolve d path) r := by
  refine .bind (quiet_call path _) fun r hr => ?_
  match r, hr with
  | .ok a, hr => exact .pure fun _ => hr
  | .error .other, hr => exact .pure fun _ => hr
  | .error .nameTooLong, _ =>
    refine .bind (quiet_directoryHandle path) fun r hr => ?_
    cases r with
    | error errno => exact .pure hr
    | ok a =>
      refine (quiet_call path fun _ => some a).imp fun r hanswer hne => ?_
      rw [hr hne a rfl]
      exact hanswer

/-! ### The former directory -/

/-- A path of the working directory that may be kept. -/
structure Trusted (host : Host D) (d : D) (path : Bytes) : Prop where
  plain : ∀ part ∈ components sep path, part ≠ dot ∧ part ≠ dotDot
  names : host.tree.Names path d

/-- The comparison of a path with the working directory fails: `directory_stat` of the
path does, or then `stat` of `.`. -/
def Doubted (host : Host D) (w : World F D) (path : Bytes) : Prop :=
  (∃ errno w', (directoryStat host path).run w = (.ok (.error errno), w')) ∨
    ∃ a w', (directoryStat host path).run w = (.ok (.ok a), w') ∧ host.fault w'.calls dot ≠ none

/-- The call of `getcwd` that is the `n`-th call fails, or has no answer. -/
def Lost (host : Host D) (n : ℕ) (d : D) : Prop := host.fault n [] ≠ none ∨ host.getcwd d = none

/-- The logical directory: the value of `PWD` where it can be trusted, else what `getcwd`
says, if that is to be had.  A trusted value is passed over only when a call about it
fails. -/
inductive Former [DecidableEq D] (host : Host D) (w : World F D) : Option Bytes → Prop
  | trusted {path : Bytes} (hvalue : valueOf w "PWD" = some path)
      (htrusted : Trusted host w.cwd path) : Former host w (some path)
  | physical {path : Bytes}
      (hvalue : ∀ value, valueOf w "PWD" = some value → Trusted host w.cwd value →
        Doubted host w value)
      (hcwd : host.getcwd w.cwd = some path) : Former host w (some path)
  | unknown
      (hvalue : ∀ value, valueOf w "PWD" = some value → Trusted host w.cwd value →
        Doubted host w value)
      (hcwd : Lost host ((logicalValid host (valueOf w "PWD")).run w).2.calls w.cwd) :
      Former host w none

theorem meets_cwd (n : ℕ) (E : Failure → World F D → Prop) :
    Meets (fun w => At s d w ∧ w.calls = n) (Directory.cwd host : Action F D (Option Bytes))
      (fun r w => (At s d w ∧ w.calls = n + 1) ∧
        (∀ path, r = some path → host.getcwd d = some path) ∧ (r = none → Lost host n d)) E := by
  refine .bind (meets_call [] host.getcwd n E) fun r => ?_
  cases r with
  | error errno =>
    exact Meets.pure fun w hw => ⟨hw.1, fun _ h => (by cases h), fun _ => hw.2.2 errno rfl⟩
  | ok path =>
    refine Meets.pure fun w hw => ⟨hw.1, fun _ h => ?_, fun h => (by cases h)⟩
    cases h
    exact hw.2.1 path rfl

section Trust

variable [DecidableEq D]

theorem Former.names {w : World F D} {path : Bytes} (h : Former host w (some path)) :
    host.tree.Names path w.cwd := by
  cases h with
  | trusted _ htrusted => exact htrusted.names
  | physical _ hcwd => exact host.getcwd_names hcwd

/-- What `logical_valid` finds out about a value. -/
inductive Judged (host : Host D) (w : World F D) (value : Option Bytes) : Bool → Prop
  | trusted {path : Bytes} (hvalue : value = some path) (h : Trusted host w.cwd path) :
      Judged host w value true
  | passed (h : ∀ path, value = some path → Trusted host w.cwd path → Doubted host w path) :
      Judged host w value false

theorem meets_logicalValid (value : Option Bytes) (w : World F D) :
    Meets (· = w) (logicalValid host value : Action F D Bool)
      (fun b w' => At w.state w.cwd w' ∧ Judged host w value b) fun _ w' => At w.state w.cwd w' := by
  cases value with
  | none => exact Meets.pure fun _ hw => ⟨hw ▸ ⟨rfl, rfl⟩, .passed fun _ h => (by cases h)⟩
  | some path =>
    rw [logicalValid]
    split
    · next hodd =>
      refine Meets.pure fun _ hw => ⟨hw ▸ ⟨rfl, rfl⟩, .passed fun other he htrusted => ?_⟩
      cases he
      rcases hodd with hrelative | ⟨part, hpart, hspecial⟩
      · exact absurd htrusted.names.absolute hrelative
      · have hplain := htrusted.plain part hpart
        exact (hspecial.elim hplain.1 hplain.2).elim
    · next hplain =>
      rw [not_or, not_not] at hplain
      obtain ⟨habsolute, hspecial⟩ := hplain
      have hne : path ≠ [] := by
        rintro rfl
        cases habsolute
      refine .bind (Meets.ran (quiet_directoryStat path) ⟨rfl, rfl⟩) fun r => ?_
      cases r with
      | error errno =>
        -- `directory_stat` fails
        refine Meets.pure fun w' hw' => ⟨hw'.2.1, .passed fun other he _ => ?_⟩
        cases he
        exact .inl ⟨errno, w', hw'.1⟩
      | ok a =>
        intro w' hw'
        obtain ⟨hran, hat, hanswer⟩ := hw'
        have ha := hanswer hne a rfl
        refine Meets.bind (meets_call dot _ w'.calls _) (fun r => ?_) w' ⟨hat, rfl⟩
        rw [resolve_dot]
        cases r with
        | error errno =>
          -- the one of `.` does, which leads to the working directory
          refine Meets.pure fun w'' hw'' => ⟨hw''.1.1, .passed fun other he _ => ?_⟩
          cases he
          rcases hw''.2.2 errno rfl with hfault | hnone
          · exact .inr ⟨a, w', hran, hfault⟩
          · cases hnone
        | ok b =>
          refine Meets.pure fun w'' hw'' => ?_
          have hb : w.cwd = b := Option.some.inj (hw''.2.1 b rfl)
          subst hb
          by_cases hab : a = w.cwd
          · rw [decide_eq_true hab]
            refine ⟨hw''.1.1, .trusted rfl ⟨fun part hpart => ?_, ?_⟩⟩
            · exact ⟨fun he => hspecial ⟨part, hpart, .inl he⟩,
                fun he => hspecial ⟨part, hpart, .inr he⟩⟩
            · rw [hab] at ha
              exact names_of_resolve habsolute ha
          · rw [decide_eq_false hab]
            refine ⟨hw''.1.1, .passed fun other he htrusted => ?_⟩
            cases he
            rw [htrusted.names.resolve w.cwd] at ha
            exact absurd (Option.some.inj ha).symm hab

/-- The former directory is trusted, or asked for, or not to be found. -/
theorem meets_current (w : World F D) :
    Meets (· = w) (current host false : Action F D (Option Bytes))
      (fun old w' => At w.state w.cwd w' ∧ Former host w old) fun _ w' => At w.state w.cwd w' := by
  rw [current]
  simp only [Bool.false_eq_true, if_false]
  refine .bind (Q := fun value w' => w' = w ∧ value = valueOf w "PWD") ?_ fun value => ?_
  · exact Meets.gets fun w' hw' => (by rw [hw']; exact ⟨rfl, rfl⟩)
  rintro w' ⟨rfl, rfl⟩
  refine Meets.bind (Meets.ran (meets_logicalValid _ w') rfl) (fun b => ?_) w' rfl
  rintro w'' ⟨hran, hat, hjudged⟩
  cases hjudged with
  | trusted hvalue htrusted =>
    refine Meets.pure (P := (· = w'')) (fun v hv => ⟨hv ▸ hat, ?_⟩) w'' rfl
    rw [hvalue]
    exact .trusted hvalue htrusted
  | passed hpassed =>
    refine Meets.weaken (meets_cwd w''.calls _) (fun _ h => h) ?_ (fun _ _ h => h) w'' ⟨hat, rfl⟩
    intro r v hv
    refine ⟨hv.1.1, ?_⟩
    cases r with
    | none => exact .unknown hpassed (by rw [hran]; exact hv.2.2 rfl)
    | some path => exact .physical hpassed (hv.2.1 path rfl)

end Trust

/-! ### The target -/

theorem meets_operandOf (operands : List Bytes) (w : World F D) :
    Meets (· = w) (operandOf operands : Action F D (Bytes × Bool)) (fun _ w' => w' = w)
      fun _ w' => At w.state w.cwd w' := by
  have hrefuse : ∀ name message, Meets (· = w) (refuse name message : Action F D (Bytes × Bool))
      (fun _ w' => w' = w) fun _ w' => At w.state w.cwd w' :=
    fun name message => (meets_refuse name message _).pre fun _ hw => hw ▸ ⟨rfl, rfl⟩
  have himplied : ∀ name print,
      Meets (· = w) (operandOf.implied name print : Action F D (Bytes × Bool)) (fun _ w' => w' = w)
        fun _ w' => At w.state w.cwd w' := by
    intro name print
    refine .bind (Q := fun _ w' => w' = w) (Meets.gets fun _ hw => hw) fun value => ?_
    match value with
    | some (_ :: _) => exact Meets.pure fun _ hw => hw
    | some [] => exact hrefuse _ _
    | none => exact hrefuse _ _
  cases operands with
  | nil => exact himplied _ _
  | cons operand _ =>
    rw [operandOf]
    split
    · exact himplied _ _
    · split
      · exact hrefuse _ _
      · exact Meets.pure fun _ hw => hw

theorem quiet_search (operand : Bytes) (parts : List Bytes) :
    Quiet s d (search host operand parts : Action F D (Option (Bytes × Bool))) fun _ => True := by
  induction parts with
  | nil => exact .pure trivial
  | cons part parts ih =>
    refine .bind (quiet_call _ _) fun r _ => ?_
    cases r with
    | ok _ => exact .pure trivial
    | error _ => exact ih

theorem quiet_targetOf (operand : Bytes) (print : Bool) :
    Quiet s d (targetOf host operand print : Action F D (Bytes × Bool)) fun _ => True := by
  unfold targetOf
  split
  · refine .bind (quiet_valueOf "CDPATH") fun value _ => ?_
    cases value with
    | none => exact .pure trivial
    | some path =>
      refine .bind (quiet_search operand _) fun found _ => ?_
      cases found with
      | none => exact .pure trivial
      | some found => exact .pure trivial
  · exact .pure trivial

theorem quiet_stands (c : Cursor) :
    Quiet s d (stands host c : Action F D Bool) fun _ => True := by
  unfold stands
  split
  · refine .bind (quiet_directoryStat _) fun r _ => ?_
    cases r <;> exact .pure trivial
  · exact .pure trivial

theorem quiet_normalizing (turns : ℕ) (c : Cursor) :
    Quiet s d (normalizing host turns c : Action F D (Option (Option Bytes))) fun _ => True := by
  induction turns generalizing c with
  | zero => exact .pure trivial
  | succ turns ih =>
    unfold normalizing
    split
    · exact .pure trivial
    · refine .bind (quiet_stands c) fun answer _ => ?_
      cases turn (fun _ => answer) c with
      | none => exact .pure trivial
      | some c => exact ih c

theorem quiet_logicalTarget (old : Option Bytes) (target : Bytes) :
    Quiet s d (logicalTarget host old target : Action F D Bytes) fun _ => True := by
  unfold logicalTarget
  extract_lets target
  split
  · refine .bind (quiet_normalizing _ _) fun r _ => ?_
    · match r with
      | some (some target) => exact .pure trivial
      | some none => exact meets_giveUp _
      | none => exact meets_giveUp _
  · exact .pure trivial

/-! ### The change -/

/-- The change of directory moves where the operand leads, or nowhere. -/
theorem meets_enter (change : Bytes) :
    Meets (At s d) (enter host change : Action F D Unit)
      (fun _ w => ∃ d', (change ≠ [] → host.tree.resolve d change = some d') ∧ At s d' w)
      fun _ w => At s d w := by
  refine .bind (meets_moveTo change _) fun r => ?_
  match r with
  | .ok () =>
    refine Meets.pure fun w hw => ?_
    rcases hw with ⟨-, d', htarget, hat⟩ | ⟨⟨errno, he⟩, -⟩
    · exact ⟨d', fun _ => htarget, hat⟩
    · cases he
  | .error .other =>
    refine (meets_giveUp _).pre ?_
    rintro w (⟨he, -⟩ | ⟨-, hat⟩)
    · cases he
    · exact hat
  | .error .nameTooLong =>
    have hstill : ∀ w : World F D, ((Except.error Errno.nameTooLong = Except.ok () ∧
        ∃ d', host.tree.resolve d change = some d' ∧ At s d' w) ∨
          (∃ errno, Except.error (α := Unit) Errno.nameTooLong = .error errno) ∧ At s d w) →
        At s d w := by
      rintro w (⟨he, -⟩ | ⟨-, hat⟩)
      · cases he
      · exact hat
    refine Meets.pre (.bind (quiet_directoryHandle change) fun r => ?_) hstill
    cases r with
    | error errno => exact (meets_giveUp _).pre fun w hw => hw.1
    | ok a =>
      -- the walk found a descriptor, which is then the working directory
      intro w hw
      obtain ⟨hat, hanswer⟩ := hw
      refine Meets.bind (meets_moveTo [] fun _ => some a) (fun r => ?_) w hat
      cases r with
      | ok _ =>
        refine Meets.pure fun w hw => ?_
        rcases hw with ⟨-, d', ha, hat⟩ | ⟨⟨errno, he⟩, -⟩
        · cases ha
          exact ⟨a, fun hne => hanswer hne a rfl, hat⟩
        · cases he
      | error errno =>
        refine (meets_giveUp _).pre ?_
        rintro w (⟨he, -⟩ | ⟨-, hat⟩)
        · cases he
        · exact hat

/-- What `chdir` is given for the rest of a path leads where the rest does. -/
theorem foldlM_of_resolve {tree : Tree D} {rest : Bytes} {d' : D}
    (h : (if (rest.dropWhile (· == sep)).isEmpty then dot else rest.dropWhile (· == sep)) ≠ [] →
      tree.resolve d (if (rest.dropWhile (· == sep)).isEmpty then dot
        else rest.dropWhile (· == sep)) = some d') :
    (components sep rest).foldlM tree.enter d = some d' := by
  rw [← components_dropWhile rest]
  have hhead : (rest.dropWhile (· == sep)).head? ≠ some sep := by
    intro hhead
    obtain ⟨tail, hcons⟩ := List.head?_eq_some_iff.mp hhead
    have hnot := List.head_dropWhile_not (· == sep) (l := rest) (by rw [hcons]; simp)
    simp [hcons] at hnot
  generalize rest.dropWhile (· == sep) = change at h hhead
  cases change with
  | nil =>
    have hdot := h (by decide)
    rw [List.isEmpty_nil, if_pos rfl, resolve_dot] at hdot
    exact hdot
  | cons byte change =>
    have hresolve := h (by simp)
    have hbyte : byte ≠ sep := by simpa using hhead
    rw [Tree.resolve] at hresolve
    simpa [hbyte] using hresolve

/-- A target without the former directory leads to the same place. -/
theorem names_of_shortened {physical : Bool} {old : Option Bytes} {target : Bytes} {d' : D}
    (hold : ∀ path, old = some path → host.tree.Names path d) (habsolute : target.head? = some sep)
    (h : shortened host physical old target ≠ [] →
      host.tree.resolve d (shortened host physical old target) = some d') :
    host.tree.Names target d' := by
  have hne : target ≠ [] := by
    rintro rfl
    cases habsolute
  unfold shortened at h
  cases old with
  | none => exact names_of_resolve habsolute (h hne)
  | some old =>
    dsimp only at h
    split at h
    · next hlong =>
      obtain ⟨-, -, -, ⟨rest, rfl⟩, hnext⟩ := hlong
      have hnames := hold old rfl
      rw [List.drop_left] at h hnext
      -- the rest of the path, which is empty or begins with a slash
      have hparts : components sep (old ++ rest) = components sep old ++ components sep rest := by
        cases rest with
        | nil => simp
        | cons byte rest =>
          have hbyte : byte = sep := by simpa using hnext
          rw [hbyte, components_append_sep, components_sep_cons]
      have hstart := hnames.resolve d
      rw [Tree.resolve, if_pos hnames.absolute] at hstart
      split at hstart
      · cases hstart
      refine names_of_resolve habsolute (d := d) ?_
      rw [Tree.resolve, if_neg (by simpa using hne), if_pos habsolute, hparts, List.foldlM_append,
        hstart]
      exact foldlM_of_resolve h
    · exact names_of_resolve habsolute (h hne)

/-! ### The variables -/

theorem meets_setVariable (name : String) (value : Bytes) (n : ℕ)
    (E : Failure → World F D → Prop) :
    Meets (fun w => At s d w ∧ w.calls = n) (setVariable name value : Action F D Bool)
      (fun b w => b = ((s.setVariable (ascii name) value).1 == .ok) ∧
        At (s.setVariable (ascii name) value).2 d w ∧ w.calls = n) E := by
  refine Meets.update fun w hw => ?_
  obtain ⟨⟨rfl, rfl⟩, rfl⟩ := hw
  exact ⟨rfl, ⟨rfl, rfl⟩, rfl⟩

theorem meets_unsetVariable (name : String) (n : ℕ) (E : Failure → World F D → Prop) :
    Meets (fun w => At s d w ∧ w.calls = n) (unsetVariable name : Action F D Bool)
      (fun b w => b = ((s.unsetVariable (ascii name)).1 == .ok) ∧
        At (s.unsetVariable (ascii name)).2 d w ∧ w.calls = n) E := by
  refine Meets.update fun w hw => ?_
  obtain ⟨⟨rfl, rfl⟩, rfl⟩ := hw
  exact ⟨rfl, ⟨rfl, rfl⟩, rfl⟩

/-- The value of a variable of the state. -/
def stateValue (s : State F) (name : String) : Option Bytes :=
  (s.binding (ascii name)).bind VariableView.value

theorem At.valueOf_eq {w : World F D} (h : At s d w) {name : String}
    (hname : validName (ascii name) = true) : valueOf w name = stateValue s name := by
  rw [valueOf, h.state, State.value_getVariable hname, stateValue]

theorem stateValue_setVariable {name : String} {value : Bytes}
    (hname : validName (ascii name) = true)
    (h : ((s.setVariable (ascii name) value).1 == StateResult.ok) = true) :
    stateValue (s.setVariable (ascii name) value).2 name = some value :=
  State.value_setVariable hname (State.writable_of_setVariable hname (by simpa using h)) value

theorem stateValue_setVariable_of_ne {name name' : String} {value : Bytes}
    (h : ascii name ≠ ascii name') :
    stateValue (s.setVariable (ascii name) value).2 name' = stateValue s name' := by
  rw [stateValue, State.binding_setVariable, if_neg (fun hc => h hc.2), stateValue]

theorem stateValue_unsetVariable (hs : s.WellFormed) {name : String}
    (hname : validName (ascii name) = true)
    (h : ((s.unsetVariable (ascii name)).1 == StateResult.ok) = true) :
    stateValue (s.unsetVariable (ascii name)).2 name = none := by
  have hw := State.writable_of_unsetVariable hname (by simpa using h)
  rw [stateValue, State.binding_unsetVariable hs, if_pos ⟨hname, rfl⟩]
  cases hb : s.binding (ascii name) with
  | none => rfl
  | some b =>
    rw [hb, Binding.writable, Bool.not_eq_true'] at hw
    simp [Binding.unset, hw]

/-- What the update of the variables leaves: the directory, and, if it succeeded, both
values.  No call is made. -/
def Published (flags : Flags) (print : Bool) (old newpwd : Option Bytes) (d : D) (n : ℕ) (b : Bool)
    (w : World F D) : Prop :=
  (w.cwd = d ∧ w.calls = n) ∧ (b = true → valueOf w "OLDPWD" = some (old.getD []) ∧
    valueOf w "PWD" = newpwd ∧ (newpwd = none → flags.physical = true ∧ print = false))

/-- Both variables follow, and the directory stays, or the update fails. -/
theorem meets_publish (hs : s.WellFormed) (flags : Flags) (print : Bool)
    (old newpwd : Option Bytes) (n : ℕ) (E : Failure → World F D → Prop) :
    Meets (fun w => At s d w ∧ w.calls = n) (publish flags print old newpwd : Action F D Bool)
      (Published flags print old newpwd d n) E := by
  have hpwd : validName (ascii "PWD") = true := by decide
  have hold : validName (ascii "OLDPWD") = true := by decide
  have hne : ascii "OLDPWD" ≠ ascii "PWD" := by decide
  have hfalse : ∀ s' : State F, Meets (fun w => At s' d w ∧ w.calls = n)
      (pure false : Action F D Bool) (Published flags print old newpwd d n) E :=
    fun s' => Meets.pure fun w hw => ⟨⟨hw.1.cwd, hw.2⟩, fun h => (by cases h)⟩
  cases newpwd with
  | none =>
    rw [publish]
    split
    · next hflags =>
      have hphysical : flags.physical = true ∧ print = false := by
        simp only [Bool.and_eq_true, Bool.not_eq_true'] at hflags
        exact ⟨hflags.1.1, hflags.2⟩
      refine .bind (meets_unsetVariable "PWD" n E) fun b => ?_
      cases b with
      | false => exact (hfalse _).pre fun w hw => hw.2
      | true =>
        intro w hw
        obtain ⟨hunset, hat⟩ := hw
        refine Meets.weaken (meets_setVariable "OLDPWD" (old.getD []) n E) (fun _ h => h) ?_
          (fun _ _ h => h) w hat
        rintro b w ⟨hb, hat', hcalls⟩
        refine ⟨⟨hat'.cwd, hcalls⟩, fun htrue => ?_⟩
        have hset := hb.symm.trans htrue
        rw [hat'.valueOf_eq hold, hat'.valueOf_eq hpwd]
        refine ⟨stateValue_setVariable hold hset, ?_, fun _ => hphysical⟩
        rw [stateValue_setVariable_of_ne hne, stateValue_unsetVariable hs hpwd hunset.symm]
    · exact hfalse s
  | some newpwd =>
    rw [publish]
    refine .bind (meets_setVariable "OLDPWD" (old.getD []) n E) fun b => ?_
    cases b with
    | false => exact (hfalse _).pre fun w hw => hw.2
    | true =>
      intro w hw
      obtain ⟨hfirst, hat⟩ := hw
      refine Meets.weaken (meets_setVariable "PWD" newpwd n E) (fun _ h => h) ?_ (fun _ _ h => h) w hat
      rintro b w ⟨hb, hat', hcalls⟩
      refine ⟨⟨hat'.cwd, hcalls⟩, fun htrue => ?_⟩
      have hset := hb.symm.trans htrue
      rw [hat'.valueOf_eq hold, hat'.valueOf_eq hpwd]
      refine ⟨?_, stateValue_setVariable hpwd hset, fun h => (by cases h)⟩
      rw [stateValue_setVariable_of_ne hne.symm, stateValue_setVariable hold hfirst.symm]

/-! ### The builtin -/

/-- What a successful change leaves: the former directory in `OLDPWD`, which is empty when
it could not be found, and a name of the new one in `PWD`, which is unset when the last call
of a physical change, `getcwd`, found none. -/
structure Changed [DecidableEq D] (host : Host D) (physical : Bool) (w w' : World F D) : Prop where
  oldpwd : ∃ old, Former host w old ∧ valueOf w' "OLDPWD" = some (old.getD [])
  pwd : (∃ path, valueOf w' "PWD" = some path ∧ host.tree.Names path w'.cwd) ∨
    physical = true ∧ valueOf w' "PWD" = none ∧ Lost host (w'.calls - 1) w'.cwd

theorem meets_printLine (line : Bytes) (E : Failure → World F D → Prop) :
    Meets (At s d) (printLine host line : Action F D Bool) (fun _ w => At s d w) E := by
  have hwrite : ∀ text, Meets (At s d) (writeText host text : Action F D Bool)
      (fun _ w => At s d w) E := by
    intro text
    refine .bind (Q := fun _ => At s d) ?_ fun r => ?_
    · exact fun w hw => (meets_call text _ w.calls E).weaken (fun _ h => h) (fun _ _ h => h.1.1)
        (fun _ _ h => h) w ⟨hw, rfl⟩
    cases r with
    | error _ => exact Meets.pure fun w hw => hw
    | ok _ =>
      refine .bind (Q := fun _ => At s d) (Meets.modify fun w hw => ?_) fun _ => Meets.pure fun w hw => hw
      exact ⟨hw.state, hw.cwd⟩
  refine .bind (hwrite line) fun b => ?_
  cases b with
  | true => exact hwrite _
  | false => exact Meets.pure fun w hw => hw

/-- The way back leads to the saved directory and the saved state. -/
theorem meets_goBack (hreturns : host.returns = true) (Q : World F D → Prop)
    (E : Failure → World F D → Prop) :
    Meets Q (goBack host d s) (fun _ w => At s d w) E := by
  rw [goBack, if_pos hreturns]
  refine .bind (Q := fun _ w => w.cwd = d) (Meets.modify fun w _ => rfl) fun _ => ?_
  exact Meets.modify fun w hw => ⟨rfl, hw⟩

variable [DecidableEq D] {w₀ : World F D}

/-- Behind `chdir`, the variables follow or everything comes back. -/
theorem meets_conclude (hs : w₀.state.Reachable) (hreturns : host.returns = true) {flags : Flags}
    {print : Bool} {old newpwd : Option Bytes} {d' : D} {n : ℕ} (hold : Former host w₀ old)
    (hnames : ∀ path, newpwd = some path → host.tree.Names path d')
    (hnone : newpwd = none → Lost host (n - 1) d') :
    Meets (fun w => At w₀.state d' w ∧ w.calls = n)
      (conclude host flags print old newpwd w₀.cwd w₀.state : Action F D Unit)
      (fun _ w => Changed host flags.physical w₀ w)
      fun failure w => failure = .failed → At w₀.state w₀.cwd w := by
  refine .bind (meets_publish hs.wellFormed flags print old newpwd n _) fun b => ?_
  cases b with
  | false =>
    refine .bind (meets_goBack hreturns _ _) fun _ => ?_
    exact (meets_giveUp _).weaken (fun _ h => h) (fun _ _ h => h) fun _ _ h _ => h
  | true =>
    intro w hw
    obtain ⟨⟨hcwd, hcalls⟩, hvalues⟩ := hw
    obtain ⟨holdpwd, hpwd, hphysical⟩ := hvalues rfl
    -- nothing is printed where `PWD` is unset, so that `getcwd` was the last call
    have hchanged : ∀ w' : World F D, At w.state w.cwd w' → (print = false → w'.calls = n) →
        Changed host flags.physical w₀ w' := by
      intro w' hat hlast
      have hvalue : ∀ name, valueOf w' name = valueOf w name := fun name => by
        rw [valueOf, valueOf, hat.state]
      refine ⟨⟨old, hold, by rw [hvalue, holdpwd]⟩, ?_⟩
      rw [hvalue, hpwd, hat.cwd, hcwd]
      cases hnewpwd : newpwd with
      | some path => exact .inl ⟨path, rfl, hnames path hnewpwd⟩
      | none =>
        obtain ⟨hphysical, hprint⟩ := hphysical hnewpwd
        rw [hlast hprint]
        exact .inr ⟨hphysical, rfl, hnone hnewpwd⟩
    have hhere : At w.state w.cwd w := ⟨rfl, rfl⟩
    by_cases hprint : print = true
    · rw [if_pos rfl, if_pos hprint]
      refine Meets.bind (meets_printLine _ _) (fun b => ?_) w hhere
      cases b with
      | true => exact Meets.pure fun w' hw' => hchanged w' hw' fun h => (by rw [hprint] at h; cases h)
      | false =>
        refine .bind (Q := fun _ _ => True) (Meets.modify fun _ _ => trivial) fun _ => ?_
        exact Meets.stop fun _ _ he => (by cases he)
    · rw [if_pos rfl, if_neg hprint]
      exact Meets.pure (P := (· = w)) (Q := fun _ => Changed host flags.physical w₀)
        (fun w' hw' => hw' ▸ hchanged w hhere fun _ => hcalls) w rfl

/-- `cd` behind its options. -/
theorem meets_changeDirectory (hs : w₀.state.Reachable) (hreturns : host.returns = true)
    (flags : Flags) (operands : List Bytes) :
    Meets (· = w₀) (changeDirectory host flags operands : Action F D Unit)
      (fun _ w => Changed host flags.physical w₀ w)
      fun failure w => failure = .failed → At w₀.state w₀.cwd w := by
  refine .bind (Meets.weaken (meets_operandOf operands w₀) (fun _ h => h) (fun _ _ h => h)
    fun _ _ h _ => h) fun ⟨operand, print⟩ => ?_
  refine .bind (Meets.weaken (meets_current w₀) (fun _ h => h) (fun _ _ h => h)
    fun _ _ h _ => h) fun old => ?_
  refine Meets.of_and fun hold => ?_
  refine (quiet_targetOf operand print).followed fun ⟨target, print⟩ _ => ?_
  have hlogical : Quiet w₀.state w₀.cwd (if flags.physical then pure target
      else logicalTarget host old target : Action F D Bytes) fun _ => True := by
    split
    · exact .pure trivial
    · exact quiet_logicalTarget old target
  refine hlogical.followed fun logical _ => ?_
  refine (quiet_directoryHandle dot).followed fun r hr => ?_
  have hfail : Meets (At w₀.state w₀.cwd) (giveUp : Action F D Unit)
      (fun _ w => Changed host flags.physical w₀ w)
      fun failure w => failure = .failed → At w₀.state w₀.cwd w :=
    (meets_giveUp _).weaken (fun _ h => h) (fun _ _ h => h) fun _ _ h _ => h
  cases r with
  | error _ => exact hfail
  | ok fd =>
    have hfd : w₀.cwd = fd := by
      have hanswer := hr (by decide) fd rfl
      rw [resolve_dot] at hanswer
      exact Option.some.inj hanswer
    subst hfd
    have hsave : Quiet w₀.state w₀.cwd (gets fun w : World F D => w.state.save)
        fun saved => saved = some w₀.state :=
      Meets.gets fun w hw => ⟨hw, by rw [hw.state, hs.save_eq]⟩
    refine hsave.followed fun saved hsaved => ?_
    subst hsaved
    refine .bind (Meets.weaken (meets_enter _) (fun _ h => h) (fun _ _ h => h)
      fun _ _ h _ => h) fun _ => Meets.exists fun d' => ?_
    intro w hw
    obtain ⟨hresolve, hat⟩ := hw
    have hnames : ∀ path, old = some path → host.tree.Names path w₀.cwd := by
      rintro path rfl
      exact hold.names
    refine Meets.bind (Q := fun r w => At w₀.state d' w ∧
      (∀ path, r = some path → host.tree.Names path d') ∧
        (r = none → Lost host (w.calls - 1) d')) ?_ (fun newpwd => ?_) w hat
    · split
      · next hlogical =>
        refine Meets.pure fun w hw => ⟨hw, fun path hpath => ?_, fun h => (by cases h)⟩
        cases hpath
        simp only [Bool.and_eq_true, decide_eq_true_eq] at hlogical
        exact names_of_shortened hnames hlogical.2 hresolve
      · intro w hw
        refine Meets.weaken (meets_cwd w.calls _) (fun _ h => h) ?_ (fun _ _ h => h) w ⟨hw, rfl⟩
        rintro r w' ⟨⟨hw', hcalls⟩, hpath, hnone⟩
        exact ⟨hw', fun path h => host.getcwd_names (hpath path h), fun h => (by rw [hcalls]; exact hnone h)⟩
    · intro w hw
      exact meets_conclude hs hreturns hold hw.2.1 hw.2.2 w ⟨hw.1, rfl⟩

/-- **A change of directory takes place or it does not.** If `cd` fails for another reason
than that it cannot print the new directory, the state and the working directory are as
before; if it succeeds, `OLDPWD` is the former logical directory and `PWD` names the new
one. -/
theorem directory_atomic (host : Host D) (hreturns : host.returns = true) (w : World F D)
    (hs : w.state.Reachable) (arguments : List Bytes) :
    Meets (· = w) (directory host true arguments)
      (fun _ w' => ∃ flags operands, options true arguments {} = some (flags, operands) ∧
        Changed host flags.physical w w')
      fun failure w' => failure = .failed → w'.state = w.state ∧ w'.cwd = w.cwd := by
  have hrefuse : ∀ name message, Meets (· = w) (refuse name message : Action F D Unit)
      (fun _ w' => ∃ flags operands, options true arguments {} = some (flags, operands) ∧
        Changed host flags.physical w w')
      fun failure w' => failure = .failed → w'.state = w.state ∧ w'.cwd = w.cwd := by
    intro name message
    refine (meets_refuse (s := w.state) (d := w.cwd) name message _).weaken ?_ (fun _ _ h => h) ?_
    · rintro _ rfl
      exact ⟨rfl, rfl⟩
    · exact fun _ _ h _ => ⟨h.state, h.cwd⟩
  unfold directory
  cases hoptions : options true arguments {} with
  | none =>
    rw [hoptions] at hrefuse
    exact hrefuse _ _
  | some parsed =>
    obtain ⟨flags, operands⟩ := parsed
    rw [hoptions] at hrefuse
    simp only [reduceIte]
    split
    · exact hrefuse _ _
    · refine (meets_changeDirectory hs hreturns flags operands).weaken ?_ ?_ ?_
      · exact fun _ h => h
      · exact fun _ w' h => ⟨flags, operands, rfl, h⟩
      · exact fun _ _ h hfailed => ⟨(h hfailed).state, (h hfailed).cwd⟩

/-! ### Two directories -/

/-- A root, where nothing else is known, and the directory `/x`. -/
def town : Tree Bool where
  root := false
  lookup d name := if d = false ∧ name = ascii "x" then some true else none

/-- No call fails, and `getcwd` knows the names `known`. -/
def townHost (known : Bool → Option Bytes) (h : ∀ {d path}, known d = some path → town.Names path d) :
    Host Bool where
  tree := town
  getcwd := known
  getcwd_names := h
  fault _ _ := none
  returns := true
  pathMax := 4096

/-- The two directories by their names. -/
def seeing : Host Bool :=
  townHost (fun d => some (if d then ascii "/x" else ascii "/")) <| by
    rintro (_ | _) path h <;> cases h
    · exact names_of_resolve (d := false) (by decide) (by decide)
    · exact names_of_resolve (d := false) (by decide) (by decide)

/-- The working directory cannot be found out. -/
def blind : Host Bool := townHost (fun _ => none) fun h => (by cases h)

/-- A shell in the root, without variables. -/
def inRoot : World ℕ Bool := ⟨.create [] [] [] 0 .stdin 0 false, false, 0, [], []⟩

theorem directory_atomic_town :
    Meets (· = inRoot) (directory seeing true [ascii "x"])
      (fun _ w' => ∃ flags operands, options true [ascii "x"] {} = some (flags, operands) ∧
        Changed seeing flags.physical inRoot w')
      fun failure w' => failure = .failed → w'.state = inRoot.state ∧ w'.cwd = inRoot.cwd :=
  directory_atomic seeing rfl inRoot (.create _ _ _ _ _ _ _) [ascii "x"]

/-- A change of directory out of one that cannot be found succeeds, and `OLDPWD` names no
directory at all. -/
theorem directory_forgets :
    (∃ w', (directory blind true [ascii "/x"]).run inRoot = (.ok (), w') ∧
      valueOf w' "OLDPWD" = some [] ∧ valueOf w' "PWD" = some (ascii "/x")) ∧
    ∀ d, ¬blind.tree.Names [] d := by
  constructor
  · exact ⟨_, rfl, by decide +kernel, by decide +kernel⟩
  · intro d h
    cases h.absolute

end Directory
end CShell
