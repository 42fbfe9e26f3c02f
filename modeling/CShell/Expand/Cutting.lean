import CShell.Expand.Prepare
import CShell.Lexer.Outline

/-!
# Words behind a cut

`expand` hands the value of an assignment to the expander as a word of its own: the
spelling begins behind the `=`, the ranges of the fragments are moved, and the fragments
of the name stay in the list as empty root text, so that the indices of the others do not
change.

A *parting* is a place where a word can be cut in this way: only root text and
continuations lie before it.  The expander finds the same structure in the word behind
it, the same subtree ends and the same decoded quotes.

## Main definitions

* `cutFragment` — a fragment behind a cut.
* `Parted word offset` — a place where a word can be cut.
* `Sliced word offset` — the fragments of the word behind it.

## Main results

* `Parted.prepare_eq` — **`prepare` takes the word behind a parting as it took the whole
  word.**
* `Parted.sliced` — **the fragments behind a parting tile what is left of the spelling.**

## References

`src/prepare.c` (`expand`), `src/expand.c` (`prepare`).
-/

namespace CShell
namespace Expand

open Lexical List

variable {raw : Bytes} {offset pos begin stop : ℕ}

/-! ### Reading behind a cut -/

theorem getElem?_cut (h : offset ≤ pos) : (raw.drop offset)[pos - offset]? = raw[pos]? := by
  rw [getElem?_drop, Nat.add_sub_cancel' h]

theorem slice_cut (h : offset ≤ begin) (stop : ℕ) :
    slice (raw.drop offset) (begin - offset) (stop - offset) = slice raw begin stop := by
  unfold slice
  rw [drop_drop, Nat.add_sub_cancel' h, Nat.sub_sub_sub_cancel_right h]

theorem skipContinuations_cut (h : offset ≤ pos) (stop : ℕ) :
    skipContinuations (raw.drop offset) (pos - offset) (stop - offset) =
      skipContinuations raw pos stop - offset := by
  fun_induction skipContinuations raw pos stop with
  | case1 pos hpair ih =>
    obtain ⟨hlt, hslash, hnewline⟩ := hpair
    have hnext : pos + 2 - offset = pos - offset + 2 := by omega
    have hsecond : pos + 1 - offset = pos - offset + 1 := by omega
    rw [skipContinuations, if_pos, ← hnext]
    · exact ih (by omega)
    · refine ⟨by omega, ?_, ?_⟩
      · rw [getElem?_cut h, hslash]
      · rw [← hsecond, getElem?_cut (by omega), hnewline]
  | case2 pos hpair =>
    have hsecond : pos + 1 - offset = pos - offset + 1 := by omega
    rw [skipContinuations, if_neg]
    rintro ⟨hlt, hslash, hnewline⟩
    refine hpair ⟨by omega, ?_, ?_⟩
    · rwa [getElem?_cut h] at hslash
    · rwa [← hsecond, getElem?_cut (by omega)] at hnewline

theorem logical_cut (raw : Bytes) (h : offset ≤ pos) (stop : ℕ) :
    logical (raw.drop offset) (pos - offset) (stop - offset) =
      ((logical raw pos stop).1, (logical raw pos stop).2 - offset) := by
  have hle := le_skipContinuations raw pos stop
  unfold logical
  rw [skipContinuations_cut h]
  by_cases hlt : skipContinuations raw pos stop < stop
  · rw [if_pos hlt, if_pos (by omega), getElem?_cut (h.trans hle)]
    dsimp only
    congr 1
    omega
  · rw [if_neg hlt, if_neg (by omega)]

theorem le_logical (raw : Bytes) (h : offset ≤ pos) (stop : ℕ) : offset ≤ (logical raw pos stop).2 := by
  have hle := le_skipContinuations raw pos stop
  unfold logical
  dsimp only
  split
  · exact h.trans (hle.trans (Nat.le_succ _))
  · exact h.trans hle

theorem trimContinuations_cut (h : offset ≤ begin) (stop : ℕ) :
    trimContinuations (raw.drop offset) (begin - offset) (stop - offset) =
      trimContinuations raw begin stop - offset := by
  fun_induction trimContinuations raw begin stop with
  | case1 stop hpair ih =>
    obtain ⟨hle, hslash, hnewline⟩ := hpair
    have hlast : stop - offset - 1 = stop - 1 - offset := by omega
    have hfirst : stop - offset - 2 = stop - 2 - offset := by omega
    rw [trimContinuations, if_pos, hfirst]
    · exact ih
    · refine ⟨by omega, ?_, ?_⟩
      · rw [hfirst, getElem?_cut (by omega), hslash]
      · rw [hlast, getElem?_cut (by omega), hnewline]
  | case2 stop hpair =>
    rw [trimContinuations, if_neg]
    rintro ⟨hle, hslash, hnewline⟩
    have hlast : stop - offset - 1 = stop - 1 - offset := by omega
    have hfirst : stop - offset - 2 = stop - 2 - offset := by omega
    refine hpair ⟨by omega, ?_, ?_⟩
    · rwa [hfirst, getElem?_cut (by omega)] at hslash
    · rwa [hlast, getElem?_cut (by omega)] at hnewline

theorem trimDelimiters_cut (h : offset ≤ begin) (count stop : ℕ) :
    trimDelimiters (raw.drop offset) (begin - offset) (stop - offset) count =
      (trimDelimiters raw begin stop count).map fun stop => stop - offset := by
  induction count generalizing stop with
  | zero => rfl
  | succ count ih =>
    rw [trimDelimiters, trimDelimiters]
    by_cases hle : stop ≤ begin
    · have hle' : stop - offset ≤ begin - offset := Nat.sub_le_sub_right hle _
      simp [hle, hle']
    · have hle' : ¬ stop - offset ≤ begin - offset := by omega
      have hlast : stop - offset - 1 = stop - 1 - offset := by omega
      rw [hlast, getElem?_cut (by omega), trimContinuations_cut h, ih]
      simp only [hle, hle', decide_false, Bool.false_or]
      split <;> rfl

/-! ### Fragments behind a cut -/

/-- A fragment as `cutWord` leaves it. -/
def cutFragment (offset : ℕ) (f : Fragment) : Fragment :=
  if f.stop ≤ offset then
    { f with kind := .text, parent := none, quote := .none, begin := 0, stop := 0 }
  else { f with begin := f.begin - offset, stop := f.stop - offset }

theorem cutWord_fragments (word : Token) (offset : ℕ) :
    (cutWord word offset).fragments = word.fragments.map (cutFragment offset) := rfl

theorem cutWord_getElem? {word : Token} {i : ℕ} {f : Fragment} (h : word.fragments[i]? = some f) :
    (cutWord word offset).fragments[i]? = some (cutFragment offset f) := by
  rw [cutWord_fragments, getElem?_map, h]
  rfl

/-- A fragment that reaches behind the cut is moved. -/
theorem cutFragment_behind {f : Fragment} (h : offset < f.stop) :
    cutFragment offset f = { f with begin := f.begin - offset, stop := f.stop - offset } :=
  if_neg (Nat.not_le.mpr h)

theorem cutFragment_begin (offset : ℕ) {f : Fragment} (h : f.begin ≤ f.stop) :
    (cutFragment offset f).begin = f.begin - offset := by
  unfold cutFragment
  split
  · show 0 = _
    omega
  · rfl

theorem cutFragment_stop (offset : ℕ) (f : Fragment) : (cutFragment offset f).stop = f.stop - offset := by
  unfold cutFragment
  split
  · show 0 = _
    omega
  · rfl

/-- What `fragment_syntax` finds at a fragment behind the cut. -/
theorem fragmentSyntax_cut (d : Decoder) {f : Fragment} (hbegin : offset ≤ f.begin)
    (hlt : f.begin < f.stop) :
    fragmentSyntax d (raw.drop offset) (cutFragment offset f) = fragmentSyntax d raw f := by
  rw [cutFragment_behind (hbegin.trans_lt hlt)]
  have hle := le_logical raw hbegin f.stop
  have hfirst := logical_cut raw hbegin f.stop
  have hsecond := logical_cut raw hle f.stop
  have hsize : f.stop - offset - (f.begin - offset) = f.stop - f.begin :=
    Nat.sub_sub_sub_cancel_right hbegin
  have hlast : (raw.drop offset)[f.stop - offset - 1]? = raw[f.stop - 1]? := by
    rw [show f.stop - offset - 1 = f.stop - 1 - offset by omega, getElem?_cut (by omega)]
  have hhead : (raw.drop offset)[f.begin - offset]? = raw[f.begin]? := getElem?_cut hbegin
  have hnext : (raw.drop offset)[f.begin - offset + 1]? = raw[f.begin + 1]? := by
    rw [show f.begin - offset + 1 = f.begin + 1 - offset by omega, getElem?_cut (by omega)]
  have hslice : slice (raw.drop offset) (f.begin - offset + 1) (f.stop - offset) =
      slice raw (f.begin + 1) f.stop := by
    rw [show f.begin - offset + 1 = f.begin + 1 - offset by omega, slice_cut (by omega)]
  have hbehind : ((logical raw (logical raw f.begin f.stop).2 f.stop).2 - offset < f.stop - offset) =
      ((logical raw (logical raw f.begin f.stop).2 f.stop).2 < f.stop) := by
    have hle' := le_logical raw hle f.stop
    apply propext
    omega
  unfold fragmentSyntax
  simp only [hfirst, hsecond, hsize, hlast, hhead, hnext, hslice, hbehind, trimDelimiters_cut hbegin]
  cases f.kind with
  | arithmetic =>
    simp only
    cases trimDelimiters raw f.begin f.stop 2 with
    | none => rfl
    | some stop =>
      have hdollar := le_logical raw hbegin stop
      have hopen := logical_cut raw hbegin stop
      have hparen := logical_cut raw hdollar stop
      have hthird := logical_cut raw (le_logical raw hdollar stop) stop
      simp only [Option.map_some, hopen, hparen, hthird]
  | _ => rfl

/-- What `command_continuation` finds in a command substitution behind the cut. -/
theorem commandContinuation_cut {p f : Fragment} (hp : offset ≤ p.begin) (hlt : p.begin < p.stop)
    (hf : offset < f.stop) :
    commandContinuation (raw.drop offset) (cutFragment offset p) (cutFragment offset f) =
      commandContinuation raw p f := by
  have hdollar := le_logical raw hp p.stop
  have hfirst := logical_cut raw hp p.stop
  have hsecond := logical_cut raw hdollar p.stop
  have hle := le_logical raw hdollar p.stop
  rw [cutFragment_behind (hp.trans_lt hlt), cutFragment_behind hf]
  unfold commandContinuation
  simp only [hfirst, hsecond]
  congr 2
  apply propext
  show f.stop - offset ≤ _ - offset ↔ _
  omega

/-! ### Partings -/

/-- A place where a word can be cut: before it lie root text and continuations, and no
NUL. -/
structure Parted (word : Token) (offset : ℕ) : Prop where
  outline : Outline word.raw word.fragments []
  within : offset ≤ word.raw.length
  before : ∀ f ∈ word.fragments, f.begin < offset →
    f.parent = none ∧ (f.kind = .text ∨ f.kind = .continuation ∧ f.stop ≤ offset)
  nonzero : (0 : UInt8) ∉ word.raw.take offset

/-- No fragment is empty. -/
def Solid (word : Token) : Prop := ∀ f ∈ word.fragments, f.begin < f.stop

namespace Parted

variable {word : Token} {offset : ℕ} (h : Parted word offset)

include h

/-- A fragment with others inside lies behind the cut. -/
theorem parent_le {i p : ℕ} {f g : Fragment} (hf : word.fragments[i]? = some f)
    (hp : f.parent = some p) (hg : word.fragments[p]? = some g) : offset ≤ g.begin := by
  by_contra hlt
  have hbranch := h.outline.branch hf hp hg
  rcases (h.before g (mem_of_getElem? hg) (Nat.not_le.mp hlt)).2 with hk | ⟨hk, -⟩
  · rw [hk] at hbranch
    cases hbranch
  · rw [hk] at hbranch
    cases hbranch

/-- The fragments keep their parents. -/
theorem parent_eq {f : Fragment} (hsolid : Solid word) (hf : f ∈ word.fragments) :
    (cutFragment offset f).parent = f.parent := by
  unfold cutFragment
  split
  · rename_i hstop
    have hlt := hsolid f hf
    exact (h.before f hf (by omega)).1.symm
  · rfl

end Parted

/-! ### The checks behind a cut -/

/-- The loop variables of `prepare` behind a cut. -/
def Nesting.cut (offset : ℕ) (nesting : Nesting) : Nesting :=
  { nesting with previous := nesting.previous - offset }

theorem close_cut (word : Token) (offset i : ℕ) (parent : Option ℕ) (stack : List ℕ) (previous : ℕ)
    (next : ℕ → ℕ) :
    Nesting.close (cutWord word offset) i parent stack (previous - offset) next =
      (Nesting.close word i parent stack previous next).cut offset := by
  induction stack generalizing previous next with
  | nil => rfl
  | cons top stack ih =>
    rw [Nesting.close, Nesting.close]
    split
    · rfl
    · have hstop : ((cutWord word offset).fragments[top]?.map Fragment.stop).getD 0 =
          (word.fragments[top]?.map Fragment.stop).getD 0 - offset := by
        rw [cutWord_fragments, getElem?_map]
        cases word.fragments[top]? with
        | none => exact (Nat.zero_sub _).symm
        | some g => exact cutFragment_stop offset g
      rw [hstop]
      exact ih _ _

/-- The fragment on top of the unwound stack is the parent. -/
theorem close_head (word : Token) (i : ℕ) (parent : Option ℕ) (stack : List ℕ) (previous : ℕ)
    (next : ℕ → ℕ) :
    ∀ top ∈ (Nesting.close word i parent stack previous next).stack.head?, parent = some top := by
  induction stack generalizing previous next with
  | nil =>
    intro top htop
    cases htop
  | cons first stack ih =>
    rw [Nesting.close]
    split
    · rename_i hfirst
      intro top htop
      cases htop
      exact hfirst
    · exact ih _ _

section Checks

variable {word : Token} {offset : ℕ} (h : Parted word offset) (hsolid : Solid word)

include h hsolid

/-- The checks that a fragment passes it passes behind the cut. -/
theorem checks_cut (d : Decoder) {i : ℕ} {f : Fragment} (hf : word.fragments[i]? = some f)
    {parent : Option Fragment} (hp : ∀ p ∈ parent, ∃ j, f.parent = some j ∧ word.fragments[j]? = some p)
    {previous : ℕ} (hstructured : structured word f parent previous = true)
    (hspelled : spelled d word f parent = true) :
    structured (cutWord word offset) (cutFragment offset f) (parent.map (cutFragment offset))
        (previous - offset) = true ∧
      spelled d (cutWord word offset) (cutFragment offset f) (parent.map (cutFragment offset)) = true := by
  have hmem := mem_of_getElem? hf
  have hlt := hsolid f hmem
  have hlength : (cutWord word offset).raw.length = word.raw.length - offset := length_drop
  unfold structured at hstructured ⊢
  unfold spelled at hspelled ⊢
  rw [hlength, cutFragment_begin offset hlt.le, cutFragment_stop]
  simp only [Bool.and_eq_true, decide_eq_true_eq] at hstructured hspelled ⊢
  obtain ⟨⟨⟨⟨⟨hparent, hprevious⟩, hle⟩, hend⟩, hsize⟩, hfive⟩ := hstructured
  obtain ⟨hbroken, hinside⟩ := hspelled
  have hranges : previous - offset ≤ f.begin - offset ∧ f.begin - offset ≤ f.stop - offset ∧
      f.stop - offset ≤ word.raw.length - offset :=
    ⟨Nat.sub_le_sub_right hprevious _, Nat.sub_le_sub_right hle _, Nat.sub_le_sub_right hend _⟩
  rcases Nat.lt_or_ge f.begin offset with hbegin | hbegin
  · -- What lies before the cut is text at the root, or becomes it.
    obtain ⟨hroot, hkind⟩ := h.before f hmem hbegin
    have htext : (cutFragment offset f).kind = .text := by
      unfold cutFragment
      split
      · rfl
      · exact hkind.resolve_right fun hk => absurd hk.2 ‹_›
    have hnone : parent = none := by
      rw [Option.eq_none_iff_forall_not_mem]
      intro p hmem
      obtain ⟨j, hj, -⟩ := hp p hmem
      rw [hroot] at hj
      cases hj
    subst hnone
    have hparent' := (h.parent_eq hsolid hmem).trans hroot
    refine ⟨⟨⟨⟨⟨⟨?_, hranges.1⟩, hranges.2.1⟩, hranges.2.2⟩, ?_⟩, ?_⟩, ?_, rfl⟩
    · simp [hparent']
    · simp [htext]
    · simp [htext]
    · unfold fragmentSyntax
      rw [htext]
  · have hmoved := cutFragment_behind (hbegin.trans_lt hlt)
    have hkind : (cutFragment offset f).kind = f.kind := by rw [hmoved]
    have hlength' : f.stop - offset - (f.begin - offset) = f.stop - f.begin :=
      Nat.sub_sub_sub_cancel_right hbegin
    have hraw : (cutWord word offset).raw = word.raw.drop offset := rfl
    rw [hkind, hlength', hraw, fragmentSyntax_cut d hbegin hlt]
    cases parent with
    | none =>
      refine ⟨⟨⟨⟨⟨⟨?_, hranges.1⟩, hranges.2.1⟩, hranges.2.2⟩, hsize⟩, hfive⟩, hbroken, rfl⟩
      rw [Option.map_none, h.parent_eq hsolid hmem]
      exact hparent
    | some p =>
      obtain ⟨j, hj, hjp⟩ := hp p rfl
      have hple := h.parent_le hf hj hjp
      have hplt := hsolid p (mem_of_getElem? hjp)
      have hpkind : (cutFragment offset p).kind = p.kind := by
        rw [cutFragment_behind (hple.trans_lt hplt)]
      simp only [Option.map_some, Bool.and_eq_true, decide_eq_true_eq] at hparent hinside ⊢
      rw [cutFragment_begin offset hplt.le, cutFragment_stop, hpkind,
        commandContinuation_cut hple hplt (hbegin.trans_lt hlt)]
      exact ⟨⟨⟨⟨⟨⟨⟨Nat.sub_le_sub_right hparent.1 _, Nat.sub_le_sub_right hparent.2 _⟩, hranges.1⟩,
        hranges.2.1⟩, hranges.2.2⟩, hsize⟩, hfive⟩, hbroken, hinside⟩

/-- **The loop of `prepare` takes the fragments behind a cut as it took them before.** -/
theorem prepareLoop_cut (d : Decoder) {fs gs : List Fragment} (hfs : word.fragments = gs ++ fs)
    {nesting nesting' : Nesting} (hok : prepareLoop d word fs gs.length nesting = .ok nesting') :
    prepareLoop d (cutWord word offset) (fs.map (cutFragment offset)) gs.length (nesting.cut offset) =
      .ok (nesting'.cut offset) := by
  induction fs generalizing gs nesting with
  | nil =>
    cases hok
    rfl
  | cons f fs ih =>
    have hf : word.fragments[gs.length]? = some f := by
      rw [hfs, getElem?_append_right (Nat.le_refl _), Nat.sub_self]
      rfl
    have hparent := h.parent_eq hsolid (mem_of_getElem? hf)
    rw [prepareLoop] at hok
    rw [map_cons, prepareLoop, hparent]
    have hclose := close_cut word offset gs.length f.parent nesting.stack nesting.previous nesting.next
    have hhead := close_head word gs.length f.parent nesting.stack nesting.previous nesting.next
    rw [show (nesting.cut offset).previous = nesting.previous - offset from rfl,
      show (nesting.cut offset).stack = nesting.stack from rfl,
      show (nesting.cut offset).next = nesting.next from rfl, hclose]
    generalize Nesting.close word gs.length f.parent nesting.stack nesting.previous nesting.next =
      closed at hok hhead ⊢
    split at hok
    · cases hok
    · rename_i hstructured
      split at hok
      · cases hok
      · rename_i hspelled
        have hp : ∀ p ∈ closed.stack.head?.bind fun top => word.fragments[top]?,
            ∃ j, f.parent = some j ∧ word.fragments[j]? = some p := by
          intro p hmem
          obtain ⟨top, htop, hget⟩ := Option.bind_eq_some_iff.mp hmem
          exact ⟨top, hhead top htop, hget⟩
        obtain ⟨hstructured', hspelled'⟩ := checks_cut h hsolid d hf hp
          (by simpa using hstructured) (by simpa using hspelled)
        have hbind : ((closed.cut offset).stack.head?.bind fun top =>
            (cutWord word offset).fragments[top]?) =
            (closed.stack.head?.bind fun top => word.fragments[top]?).map (cutFragment offset) := by
          show (closed.stack.head?.bind _) = _
          cases closed.stack.head? with
          | none => rfl
          | some top => exact getElem?_map
        have hlast := @ih (gs ++ [f]) (by rw [hfs, append_assoc]; rfl) _
          (by rw [length_append]; exact hok)
        rw [hbind, show (closed.cut offset).previous = closed.previous - offset from rfl,
          hstructured', hspelled']
        simp only [Bool.not_true, Bool.false_eq_true, if_false]
        rw [length_append] at hlast
        have hbegin := cutFragment_begin offset (hsolid f (mem_of_getElem? hf)).le
        rw [hbegin]
        exact hlast

end Checks

/-! ### Decoding behind a cut -/

theorem decodeFragment_cut (env : ExpandEnv) {word : Token} {f : Fragment} (hbegin : offset ≤ f.begin)
    (hlt : f.begin < f.stop) :
    decodeFragment env (cutWord word offset) (cutFragment offset f) = decodeFragment env word f := by
  rw [cutFragment_behind (hbegin.trans_lt hlt)]
  have hle := le_logical word.raw hbegin f.stop
  have hle' := le_logical word.raw hle f.stop
  have hfirst := logical_cut word.raw hbegin f.stop
  have hsecond := logical_cut word.raw hle f.stop
  have hlast : (word.raw.drop offset)[f.stop - offset - 1]? = word.raw[f.stop - 1]? := by
    rw [show f.stop - offset - 1 = f.stop - 1 - offset by omega, getElem?_cut (by omega)]
  have hslice := @slice_cut word.raw offset _ hle' (f.stop - 1)
  rw [show f.stop - 1 - offset = f.stop - offset - 1 by omega] at hslice
  have hraw : (cutWord word offset).raw = word.raw.drop offset := rfl
  have hend : (f.stop - offset ≤ (logical word.raw (logical word.raw f.begin f.stop).2 f.stop).2 - offset) =
      (f.stop ≤ (logical word.raw (logical word.raw f.begin f.stop).2 f.stop).2) := by
    apply propext
    omega
  unfold decodeFragment
  simp only [hraw, hfirst, hsecond, hlast, hslice, hend]

/-- Behind a cut the same quotes are decoded. -/
theorem decodeLoop_cut (env : ExpandEnv) {word : Token} (h : Parted word offset) (hsolid : Solid word)
    {fs : List Fragment} (hfs : ∀ f ∈ fs, f ∈ word.fragments) (i : ℕ) (decoded : ℕ → Bytes) :
    decodeLoop env (cutWord word offset) (fs.map (cutFragment offset)) i decoded =
      decodeLoop env word fs i decoded := by
  induction fs generalizing i decoded with
  | nil => rfl
  | cons f fs ih =>
    have hmem := hfs f mem_cons_self
    have hrest := fun g hg => hfs g (mem_cons_of_mem _ hg)
    have hlt := hsolid f hmem
    rw [map_cons, decodeLoop, decodeLoop]
    rcases Nat.lt_or_ge f.begin offset with hbegin | hbegin
    · -- Before the cut there are no quotes.
      have hkind := (h.before f hmem hbegin).2
      have hplain : f.kind ≠ .quoted := by
        rcases hkind with hk | ⟨hk, -⟩ <;> rw [hk] <;> exact FragmentKind.noConfusion
      have hplain' : (cutFragment offset f).kind ≠ .quoted := by
        unfold cutFragment
        split
        · exact FragmentKind.noConfusion
        · exact hplain
      rw [if_neg (by simp [hplain']), if_neg (by simp [hplain])]
      exact ih hrest _ _
    · rw [decodeFragment_cut env hbegin hlt, cutFragment_behind (hbegin.trans_lt hlt)]
      split
      · split
        · rfl
        · exact ih hrest _ _
      · exact ih hrest _ _

/-! ### Results -/

/-- Fragments that pass the checks of `prepare` are long enough. -/
theorem prepareLoop_sizes {d : Decoder} {word : Token} {fs : List Fragment} {i : ℕ}
    {nesting nesting' : Nesting} (hok : prepareLoop d word fs i nesting = .ok nesting') :
    ∀ f ∈ fs, f.kind = .text ∨ 2 ≤ f.stop - f.begin := by
  induction fs generalizing i nesting with
  | nil => simp
  | cons f fs ih =>
    rw [prepareLoop] at hok
    split at hok
    · cases hok
    · rename_i hstructured
      split at hok
      · cases hok
      · intro g hg
        rcases mem_cons.mp hg with rfl | hg
        · unfold structured at hstructured
          simp only [Bool.not_eq_true', Bool.not_eq_false, Bool.and_eq_true, Bool.or_eq_true,
            beq_iff_eq, decide_eq_true_eq] at hstructured
          exact hstructured.1.2
        · exact ih hok g hg

theorem contiguous_cut (offset : ℕ) {a b : ℕ} {fs : List Fragment} (h : Contiguous a fs b)
    (hle : ∀ f ∈ fs, f.begin ≤ f.stop) :
    Contiguous (a - offset) (fs.map (cutFragment offset)) (b - offset) := by
  induction fs generalizing a with
  | nil => exact congrArg (· - offset) (show a = b from h)
  | cons f fs ih =>
    obtain ⟨hbegin, hrest⟩ := h
    refine ⟨?_, ?_⟩
    · rw [cutFragment_begin offset (hle f mem_cons_self), hbegin]
    · rw [cutFragment_stop]
      exact ih hrest fun g hg => hle g (mem_cons_of_mem _ hg)

/-- What the expander is given behind a cut: the fragments keep their places in the list,
those that reach behind the cut their kinds, quotes, parents and bytes, the others are
empty root text, and the root fragments tile what is left of the spelling. -/
structure Sliced (word : Token) (offset : ℕ) : Prop where
  raw : (cutWord word offset).raw = word.raw.drop offset
  length : (cutWord word offset).fragments.length = word.fragments.length
  consumed : ∀ (i : ℕ) (f : Fragment), word.fragments[i]? = some f → f.stop ≤ offset →
    f.parent = none ∧ (f.kind = .text ∨ f.kind = .continuation) ∧
      ∃ f', (cutWord word offset).fragments[i]? = some f' ∧ f'.kind = .text ∧ f'.quote = .none ∧
        f'.parent = none ∧ f'.begin = 0 ∧ f'.stop = 0
  straddling : ∀ f ∈ word.fragments, f.begin < offset → offset < f.stop →
    f.parent = none ∧ f.kind = .text
  behind : ∀ (i : ℕ) (f : Fragment), word.fragments[i]? = some f → offset < f.stop →
    ∃ f', (cutWord word offset).fragments[i]? = some f' ∧ f'.kind = f.kind ∧ f'.quote = f.quote ∧
      f'.parent = f.parent ∧ f'.begin = f.begin - offset ∧ f'.stop = f.stop - offset ∧
      slice (word.raw.drop offset) f'.begin f'.stop = slice word.raw (max f.begin offset) f.stop
  tiled : Contiguous 0 (roots (cutWord word offset).fragments) (word.raw.length - offset)

namespace Parted

variable {word : Token} {offset : ℕ} (h : Parted word offset)

include h

theorem solid {d : Decoder} {nesting : Nesting}
    (hok : prepareLoop d word word.fragments 0 {} = .ok nesting) : Solid word := by
  intro f hf
  rcases prepareLoop_sizes hok f hf with hk | hsize
  · exact h.outline.text_lt hf hk
  · omega

/-- What is behind a parting passes the checks that the whole word passed. -/
theorem accepted {d : Decoder} {nesting : Nesting}
    (hok : prepareLoop d word word.fragments 0 {} = .ok nesting) :
    prepareLoop d (cutWord word offset) (cutWord word offset).fragments 0 {} =
      .ok (nesting.cut offset) := by
  have hloop := @prepareLoop_cut word offset h (h.solid hok) d word.fragments [] rfl {} nesting hok
  have hstart : Nesting.cut offset {} = {} :=
    congrArg (fun p => ({ previous := p } : Nesting)) (Nat.zero_sub _)
  rwa [length_nil, hstart] at hloop

/-- **`prepare` takes the word behind a parting as it took the whole word**: the same
subtree ends, and the same decoded quotes or the same error. -/
theorem prepare_eq (env : ExpandEnv) {nesting : Nesting}
    (hok : prepareLoop env.lexical word word.fragments 0 {} = .ok nesting) :
    prepare env (cutWord word offset) = prepare env word := by
  have hnul : (cutWord word offset).raw.contains 0 = word.raw.contains 0 := by
    have hsplit := take_append_drop offset word.raw
    have hmem : (0 : UInt8) ∈ word.raw.drop offset ↔ (0 : UInt8) ∈ word.raw := by
      conv_rhs => rw [← hsplit, mem_append]
      exact ⟨.inr, fun hmem => hmem.resolve_left h.nonzero⟩
    rw [Bool.eq_iff_iff, contains_iff_mem, contains_iff_mem]
    exact hmem
  have hdecode := decodeLoop_cut env h (h.solid hok) (fun f hf => hf) 0 fun _ => []
  unfold prepare
  rw [show (cutWord word offset).kind = word.kind from rfl, hnul, h.accepted hok, hok,
    cutWord_fragments, hdecode, length_map]
  rfl

/-- **The fragments behind a parting tile what is left of the spelling.** -/
theorem sliced (hsolid : Solid word) : Sliced word offset where
  raw := rfl
  length := length_map _
  consumed := by
    intro i f hf hstop
    have hmem := mem_of_getElem? hf
    have hlt := hsolid f hmem
    obtain ⟨hroot, hkind⟩ := h.before f hmem (hlt.trans_le hstop)
    have hempty : cutFragment offset f =
        { f with kind := .text, parent := none, quote := .none, begin := 0, stop := 0 } := if_pos hstop
    refine ⟨hroot, hkind.imp_right And.left, cutFragment offset f, cutWord_getElem? hf, ?_⟩
    rw [hempty]
    exact ⟨rfl, rfl, rfl, rfl, rfl⟩
  straddling := by
    intro f hf hbegin hstop
    obtain ⟨hroot, hkind⟩ := h.before f hf hbegin
    exact ⟨hroot, hkind.resolve_right fun hk => by omega⟩
  behind := by
    intro i f hf hstop
    refine ⟨cutFragment offset f, cutWord_getElem? hf, ?_⟩
    rw [cutFragment_behind hstop]
    refine ⟨rfl, rfl, rfl, rfl, rfl, ?_⟩
    have hslice := @slice_cut word.raw offset (max f.begin offset) (Nat.le_max_right _ _) f.stop
    rwa [show max f.begin offset - offset = f.begin - offset by omega] at hslice
  tiled := by
    have htiled := contiguous_cut offset h.outline.tiled fun f hf =>
      (hsolid f (mem_filter.mp hf).1).le
    have hroots : roots (cutWord word offset).fragments =
        (roots word.fragments).map (cutFragment offset) := by
      rw [cutWord_fragments]
      unfold roots
      rw [filter_map]
      congr 1
      refine filter_congr fun f hf => ?_
      show (cutFragment offset f).parent.isNone = f.parent.isNone
      rw [h.parent_eq hsolid hf]
    rw [hroots]
    rwa [Nat.zero_sub] at htiled

end Parted

end Expand
end CShell
