import CShell.Expand.Inert
import CShell.Quoting.Lexed

/-!
# Expanding quoted words

`prepare` accepts the fragments of a quoted word and links each root fragment to the
next one; `range` then turns every part into one protected span of the only field.

## Main definitions

* `Linked` — the subtree ends `prepare` stores for the parts of a word.
* `QuotedWord` — a word of an unquoted beginning and quoted parts, as the lexer
  publishes it.
* `wordSpans` — its spans.

## Main results

* `prepare_quotedWord` — the word is accepted.
* `expandWord_quotedWord` — **it expands to one field of its spans.**

## References

`src/expand.c` (`prepare`, `range`).
-/

namespace CShell
namespace Quoting

open Expand

variable {F : Type}

/-! ### Preparation -/

/-- How many fragments a part has. -/
def Part.size : Part → ℕ
  | .single [] => 1
  | .single (_ :: _) => 2
  | .quote => 1

theorem Part.size_single {text : Bytes} (h : text ≠ []) : Part.size (.single text) = 2 := by
  obtain ⟨byte, rest, rfl⟩ := List.exists_cons_of_ne_nil h
  rfl

/-- Every root fragment of the parts leads to the next one. -/
def Linked : List Part → ℕ → (ℕ → ℕ) → Prop
  | [], _, _ => True
  | part :: parts, i, next => next i = i + part.size ∧ Linked parts (i + part.size) next

/-- A root fragment closes everything. -/
theorem close_root (word : Token) (i : ℕ) (stack : List ℕ) (previous : ℕ) (next : ℕ → ℕ) :
    ∃ previous' next', Nesting.close word i none stack previous next = ⟨[], previous', next'⟩ ∧
      (stack = [] ∧ previous' = previous ∨
        ∃ r, stack.getLast? = some r ∧ previous' = (word.fragments[r]?.map Fragment.stop).getD 0) ∧
      ∀ j, next' j = if j ∈ stack then i else next j := by
  induction stack generalizing previous next with
  | nil => exact ⟨previous, next, rfl, Or.inl ⟨rfl, rfl⟩, fun j => by simp⟩
  | cons top stack ih =>
    obtain ⟨previous', next', hclose, hprevious, hnext⟩ :=
      ih ((word.fragments[top]?.map Fragment.stop).getD 0) fun j => if j = top then i else next j
    refine ⟨previous', next', ?_, Or.inr ?_, fun j => ?_⟩
    · rw [Nesting.close, if_neg (by simp)]
      exact hclose
    · rcases hprevious with ⟨rfl, rfl⟩ | ⟨r, hr, rfl⟩
      · exact ⟨top, rfl, rfl⟩
      · refine ⟨r, ?_, rfl⟩
        rw [List.getLast?_cons, hr]
        rfl
    · rw [hnext]
      by_cases hj : j = top
      · simp [hj]
      · simp [hj]

/-- The ends that `prepare` keeps of its last state. -/
def endsOf (word : Token) (nesting : Nesting) (j : ℕ) : ℕ :=
  if j ∈ nesting.stack then word.fragments.length else nesting.next j

/-- The fragments that are open, the outermost last, end before offset `o`. -/
def Closed (word : Token) (nesting : Nesting) (o : ℕ) : Prop :=
  (nesting.stack = [] → nesting.previous ≤ o) ∧
    ∀ r, nesting.stack.getLast? = some r → (word.fragments[r]?.map Fragment.stop).getD 0 ≤ o

/-- One root fragment is accepted, given the checks on its spelling. -/
theorem prepareLoop_root {lexical : Decoder} {word : Token} {f : Fragment} {fs : List Fragment}
    {i : ℕ} {nesting : Nesting} (hparent : f.parent = none)
    (hclosed : Closed word nesting f.begin) (hle : f.begin ≤ f.stop) (hstop : f.stop ≤ word.raw.length)
    (hsize : f.kind = .text ∨ 2 ≤ f.stop - f.begin) (hkind : f.kind ≠ .arithmetic)
    (hpasses : fragmentSyntax lexical word.raw f = true) :
    ∃ next, (∀ j, next j = if j ∈ nesting.stack then i else nesting.next j) ∧
      prepareLoop lexical word (f :: fs) i nesting =
        prepareLoop lexical word fs (i + 1) ⟨[i], f.begin, next⟩ := by
  obtain ⟨previous', next', hclose, hprevious, hnext⟩ :=
    close_root word i nesting.stack nesting.previous nesting.next
  refine ⟨next', hnext, ?_⟩
  have hbefore : previous' ≤ f.begin := by
    rcases hprevious with ⟨hnil, rfl⟩ | ⟨r, hr, rfl⟩
    · exact hclosed.1 hnil
    · exact hclosed.2 r hr
  have hstructured : structured word f none previous' = true := by
    simp only [structured, hparent, Option.isNone_none, Bool.true_and, Bool.and_eq_true,
      decide_eq_true_eq, Bool.or_eq_true, beq_iff_eq, bne_iff_ne, ne_eq]
    exact ⟨⟨⟨⟨hbefore, hle⟩, hstop⟩, hsize⟩, Or.inl hkind⟩
  have hspelled : spelled lexical word f none = true := by
    simp [spelled, hpasses]
  rw [prepareLoop]
  simp only [hparent, hclose, List.head?_nil, Option.bind_none, hstructured, hspelled, Bool.not_true,
    Bool.false_eq_true, if_false]

/-- The bytes between a beginning and an end. -/
theorem slice_middle (pre text post : Bytes) :
    slice (pre ++ text ++ post) pre.length (pre.length + text.length) = text := by
  unfold slice
  rw [Nat.add_sub_cancel_left, List.append_assoc, List.drop_left, List.take_left]

variable {lexical : Decoder} {gs : List Fragment} {parts : List Part} {lead : Bytes}

/-- The spelling of a quoted part. -/
theorem quoted_passes {raw pre text post : Bytes}
    (hraw : raw = pre ++ (tick :: text ++ [tick]) ++ post) (start finish : Position) :
    fragmentSyntax lexical raw
      ⟨.quoted, .single, none, pre.length, pre.length + text.length + 2, start, finish⟩ = true := by
  have hfirst : raw[pre.length]? = some tick := by
    rw [hraw, List.append_assoc, List.getElem?_append_right (Nat.le_refl _)]
    simp
  have hlast : raw[pre.length + text.length + 1]? = some tick := by
    rw [hraw, List.append_assoc, List.getElem?_append_right (by omega)]
    rw [show pre.length + text.length + 1 - pre.length = text.length + 1 by omega]
    simp
  simp [fragmentSyntax, hfirst, hlast]

/-- The spelling of an escaped quote. -/
theorem escape_passes {raw pre post : Bytes}
    (hraw : raw = pre ++ [byteOf '\\', tick] ++ post) (start finish : Position) :
    fragmentSyntax lexical raw
      ⟨.escape, .none, none, pre.length, pre.length + 2, start, finish⟩ = true := by
  have hfirst : raw[pre.length]? = some (byteOf '\\') := by
    rw [hraw, List.append_assoc, List.getElem?_append_right (Nat.le_refl _)]
    simp
  have hslice : slice raw (pre.length + 1) (pre.length + 2) = [tick] := by
    rw [hraw, show pre ++ [byteOf '\\', tick] ++ post = (pre ++ [byteOf '\\']) ++ [tick] ++ post by simp]
    have hmid := slice_middle (pre ++ [byteOf '\\']) [tick] post
    rwa [List.length_append] at hmid
  have hwidth : lexical.characterLength [tick] true = 1 := characterLength_ascii (by decide) _ _
  simp [fragmentSyntax, hfirst, hslice, hwidth]

/-- The first loop of `prepare` accepts the fragments of the parts from any state that
has ended before them, and links the parts. -/
def Accepts (lexical : Decoder) (word : Token) (parts : List Part) (o i : ℕ)
    (gs : List Fragment) : Prop :=
  ∀ nesting, Closed word nesting o → (∀ j ∈ nesting.stack, j < i) →
    ∃ nesting', prepareLoop lexical word gs i nesting = .ok nesting' ∧
      (∀ j < i, endsOf word nesting' j = if j ∈ nesting.stack then i else nesting.next j) ∧
      Linked parts i (endsOf word nesting')

/-- A part of one fragment. -/
theorem Accepts.leaf {word : Token} {part : Part} {i : ℕ}
    {f : Fragment} (h : Accepts lexical word parts f.stop (i + 1) gs)
    (hsize : part.size = 1) (hparent : f.parent = none) (hlen : f.stop = f.begin + 2)
    (hkind : f.kind ≠ .arithmetic) (hstop : f.stop ≤ word.raw.length)
    (hget : word.fragments[i]? = some f) (hpasses : fragmentSyntax lexical word.raw f = true) :
    Accepts lexical word (part :: parts) f.begin i (f :: gs) := by
  intro nesting hclosed hstack
  obtain ⟨next, hnext, hloop⟩ := @prepareLoop_root lexical word f gs i nesting hparent hclosed (by omega)
    hstop (Or.inr (by omega)) hkind hpasses
  have hclosed' : Closed word ⟨[i], f.begin, next⟩ f.stop := by
    refine ⟨fun hnil => by simp at hnil, fun r hr => ?_⟩
    have hr' : r = i := by simpa using hr.symm
    rw [hr', hget]
    simp
  obtain ⟨nesting', hok, hends, hlinked⟩ := h _ hclosed' (by simp)
  refine ⟨nesting', hloop.trans hok, fun j hj => ?_, ?_, by rw [hsize]; exact hlinked⟩
  · rw [hends j (by omega)]
    simp [Nat.ne_of_lt hj, hnext]
  · rw [hends i (by omega), hsize]
    simp

/-- A quoted part with text in it. -/
theorem Accepts.region {word : Token} {text : Bytes}
    {o i : ℕ} {start finish start' finish' : Position}
    (h : Accepts lexical word parts (o + text.length + 2) (i + 2) gs) (hne : text ≠ [])
    (hstop : o + text.length + 2 ≤ word.raw.length)
    (hget : word.fragments[i]? =
      some ⟨.quoted, .single, none, o, o + text.length + 2, start, finish⟩)
    (hpasses : fragmentSyntax lexical word.raw
      ⟨.quoted, .single, none, o, o + text.length + 2, start, finish⟩ = true) :
    Accepts lexical word (.single text :: parts) o i
      (⟨.quoted, .single, none, o, o + text.length + 2, start, finish⟩ ::
        ⟨.text, .single, some i, o + 1, o + 1 + text.length, start', finish'⟩ :: gs) := by
  intro nesting hclosed hstack
  obtain ⟨next, hnext, hloop⟩ := @prepareLoop_root lexical word _
    (⟨.text, .single, some i, o + 1, o + 1 + text.length, start', finish'⟩ :: gs) i nesting rfl
    hclosed (by simp; omega) hstop (Or.inr (by simp; omega)) (by simp) hpasses
  -- the text lies inside the region
  have hinner : prepareLoop lexical word
      (⟨.text, .single, some i, o + 1, o + 1 + text.length, start', finish'⟩ :: gs) (i + 1)
      ⟨[i], o, next⟩ = prepareLoop lexical word gs (i + 2) ⟨[i + 1, i], o + 1, next⟩ := by
    rw [prepareLoop]
    simp only [Nesting.close, if_true, List.head?_cons, Option.bind_some, hget]
    have hstructured : structured word
        ⟨.text, .single, some i, o + 1, o + 1 + text.length, start', finish'⟩
        (some ⟨.quoted, .single, none, o, o + text.length + 2, start, finish⟩) o = true := by
      simp only [structured, Bool.and_eq_true, decide_eq_true_eq, Bool.or_eq_true, beq_iff_eq,
        bne_iff_ne, ne_eq]
      refine ⟨⟨⟨⟨⟨⟨by omega, by omega⟩, by omega⟩, by omega⟩, by omega⟩, Or.inl trivial⟩, Or.inl (by simp)⟩
    have hspelled : spelled lexical word
        ⟨.text, .single, some i, o + 1, o + 1 + text.length, start', finish'⟩
        (some ⟨.quoted, .single, none, o, o + text.length + 2, start, finish⟩) = true := by
      simp [spelled, fragmentSyntax]
    simp only [hstructured, hspelled, Bool.not_true, Bool.false_eq_true, if_false]
  have hclosed' : Closed word ⟨[i + 1, i], o + 1, next⟩ (o + text.length + 2) := by
    refine ⟨fun hnil => by simp at hnil, fun r hr => ?_⟩
    have hr' : r = i := by simpa using hr.symm
    rw [hr', hget]
    simp
  obtain ⟨nesting', hok, hends, hlinked⟩ := h _ hclosed' (by simp)
  refine ⟨nesting', hloop.trans (hinner.trans hok), fun j hj => ?_, ?_, ?_⟩
  · rw [hends j (by omega)]
    simp [Nat.ne_of_lt hj, Nat.ne_of_lt (Nat.lt_succ_of_lt hj), hnext]
  · rw [hends i (by omega), Part.size_single hne]
    simp
  · rw [Part.size_single hne]
    exact hlinked

/-- **The parts of a word are accepted**, and each of them is linked to the next. -/
theorem accepts_parts {word : Token} {o i : ℕ}
    (h : Lays parts o i gs) {fs : List Fragment} {pre : Bytes}
    (hfs : word.fragments = fs ++ gs) (hi : i = fs.length) (hraw : word.raw = pre ++ spelling parts)
    (ho : o = pre.length) : Accepts lexical word parts o i gs := by
  induction h generalizing fs pre with
  | @nil o i =>
    intro nesting _ _
    refine ⟨nesting, rfl, fun j _ => ?_, trivial⟩
    rw [List.append_nil] at hfs
    unfold endsOf
    rw [hfs, ← hi]
  | @quote parts o i gs start finish _ ih =>
    have hspell : word.raw = pre ++ [byteOf '\\', tick] ++ spelling parts := by
      simp [hraw, Part.spelling]
    have hsplit : word.fragments =
        fs ++ [⟨.escape, .none, none, o, o + 2, start, finish⟩] ++ gs := by simp [hfs]
    have hrest := ih hsplit (by simp [hi]) hspell (by simp [ho])
    refine hrest.leaf (f := ⟨.escape, .none, none, o, o + 2, start, finish⟩) rfl rfl rfl (by simp) ?_
      ?_ ?_
    · rw [hspell, ho]
      simp
    · simp [hfs, hi]
    · rw [ho]
      exact escape_passes hspell start finish
  | @empty parts o i gs start finish _ ih =>
    have hspell : word.raw = pre ++ (tick :: [] ++ [tick]) ++ spelling parts := by
      simp [hraw, Part.spelling]
    have hsplit : word.fragments =
        fs ++ [⟨.quoted, .single, none, o, o + 2, start, finish⟩] ++ gs := by simp [hfs]
    have hrest := ih hsplit (by simp [hi]) hspell (by simp [ho])
    refine hrest.leaf (f := ⟨.quoted, .single, none, o, o + 2, start, finish⟩) rfl rfl rfl (by simp)
      ?_ ?_ ?_
    · rw [hspell, ho]
      simp
    · simp [hfs, hi]
    · rw [ho]
      exact quoted_passes hspell start finish
  | @single parts o i gs text hne start finish start' finish' _ ih =>
    have hspell : word.raw = pre ++ (tick :: text ++ [tick]) ++ spelling parts := by
      simp [hraw, Part.spelling]
    have hsplit : word.fragments =
        fs ++ [⟨.quoted, .single, none, o, o + text.length + 2, start, finish⟩,
          ⟨.text, .single, some i, o + 1, o + 1 + text.length, start', finish'⟩] ++ gs := by
      simp [hfs]
    have hrest := ih hsplit (by simp [hi]) hspell (by simp [ho]; omega)
    refine hrest.region hne ?_ ?_ ?_
    · rw [hspell, ho]
      simp only [List.length_append, List.length_cons, List.length_nil]
      omega
    · simp [hfs, hi]
    · rw [ho]
      exact quoted_passes hspell start finish

/-- A word of an unquoted beginning and quoted parts, as the lexer publishes it. -/
structure QuotedWord (word : Token) (lead : Bytes) (parts : List Part) : Prop where
  kind : word.kind = .word
  raw : word.raw = lead ++ spelling parts
  ordinary : ∀ byte ∈ lead, ordinary byte = true
  fine : ∀ part ∈ parts, part.Fine
  nonempty : lead ≠ [] ∨ parts ≠ []
  fragments : ∃ start finish gs, word.fragments = leadFragments lead start finish ++ gs ∧
    Lays parts lead.length (leadFragments lead start finish).length gs

/-- The index of the first fragment behind the unquoted beginning. -/
def base (lead : Bytes) : ℕ := if lead = [] then 0 else 1

theorem length_leadFragments (lead : Bytes) (start finish : Position) :
    (leadFragments lead start finish).length = base lead := by
  unfold leadFragments base
  split <;> rfl

/-- No fragment of the parts is to be decoded. -/
theorem Lays.not_dollar {o i : ℕ} (h : Lays parts o i gs) :
    ∀ f ∈ gs, f.quote ≠ .dollarSingle := by
  induction h with
  | nil => simp
  | quote start finish _ ih => simpa using ih
  | empty start finish _ ih => simpa using ih
  | single hne start finish start' finish' _ ih => simpa using ih

theorem decodeLoop_plain {env : ExpandEnv} {word : Token} {fs : List Fragment}
    (h : ∀ f ∈ fs, f.quote ≠ .dollarSingle) (i : ℕ) (decoded : ℕ → Bytes) :
    decodeLoop env word fs i decoded = .ok decoded := by
  induction fs generalizing i with
  | nil => rfl
  | cons f fs ih =>
    have hf : f.quote ≠ .dollarSingle := h f List.mem_cons_self
    simp only [decodeLoop, hf, decide_false, Bool.and_false, Bool.false_eq_true, if_false]
    exact ih (fun g hg => h g (List.mem_cons_of_mem f hg)) (i + 1)

theorem nulFree_spelling (h : ∀ part ∈ parts, part.Fine) :
    NulFree (spelling parts) := by
  induction parts with
  | nil => simp [NulFree]
  | cons part parts ih =>
    have hrest := ih fun q hq => h q (List.mem_cons_of_mem part hq)
    rw [spelling_cons]
    simp only [NulFree, List.mem_append, not_or]
    refine ⟨?_, hrest⟩
    cases part with
    | quote => decide
    | single text =>
      have htext : (0 : UInt8) ∉ text := (h _ List.mem_cons_self).2
      simp only [Part.spelling, List.mem_append, List.mem_cons, not_or]
      exact ⟨⟨by decide, htext⟩, by decide, by simp⟩

theorem QuotedWord.nulFree {word : Token}
    (h : QuotedWord word lead parts) : word.raw.contains 0 = false := by
  have hlead : (0 : UInt8) ∉ lead := fun hmem => (ordinary_spec (h.ordinary 0 hmem)).2 (by decide)
  have hparts : (0 : UInt8) ∉ spelling parts := nulFree_spelling h.fine
  rw [h.raw, List.contains_eq_mem, decide_eq_false_iff_not, List.mem_append, not_or]
  exact ⟨hlead, hparts⟩

/-- **The word is accepted**, and its root fragments are linked. -/
theorem prepare_quotedWord {word : Token}
    (h : QuotedWord word lead parts) (env : ExpandEnv) :
    ∃ prepared, prepare env word = .ok prepared ∧ (lead ≠ [] → prepared.next 0 = 1) ∧
      Linked parts (base lead) prepared.next := by
  obtain ⟨start, finish, gs, hfs, hlays⟩ := h.fragments
  have haccepts : Accepts env.lexical word parts lead.length (base lead) gs := by
    rw [length_leadFragments] at hlays
    exact accepts_parts hlays hfs (length_leadFragments lead start finish).symm h.raw rfl
  have hloop : ∃ nesting, prepareLoop env.lexical word word.fragments 0 {} = .ok nesting ∧
      (lead ≠ [] → endsOf word nesting 0 = 1) ∧ Linked parts (base lead) (endsOf word nesting) := by
    by_cases hlead : lead = []
    · have hclosed : Closed word {} lead.length := ⟨fun _ => Nat.zero_le _, by simp⟩
      obtain ⟨nesting, hok, -, hlinked⟩ := haccepts {} hclosed (by simp)
      refine ⟨nesting, ?_, fun hne => absurd hlead hne, hlinked⟩
      rw [hfs, leadFragments, if_pos hlead, List.nil_append]
      simpa [base, hlead] using hok
    · -- the unquoted beginning is one text fragment
      have hfirst : word.fragments = ⟨.text, .none, none, 0, lead.length, start, finish⟩ :: gs := by
        rw [hfs, leadFragments, if_neg hlead]
        rfl
      have hclosed : Closed word {} 0 := ⟨fun _ => Nat.le_refl _, by simp⟩
      obtain ⟨next, hnext, hstep⟩ := @prepareLoop_root env.lexical word
        ⟨.text, .none, none, 0, lead.length, start, finish⟩ gs 0 {} rfl hclosed (Nat.zero_le _)
        (by simp [h.raw]) (Or.inl rfl) (by simp) rfl
      have hbase : base lead = 1 := by simp [base, hlead]
      rw [hbase] at haccepts
      have hclosed' : Closed word ⟨[0], 0, next⟩ lead.length := by
        refine ⟨fun hnil => by simp at hnil, fun r hr => ?_⟩
        have hr' : r = 0 := by simpa using hr.symm
        simp [hr', hfirst]
      obtain ⟨nesting, hok, hends, hlinked⟩ := haccepts _ hclosed' (by simp)
      refine ⟨nesting, ?_, fun _ => ?_, by rw [hbase]; exact hlinked⟩
      · rw [hfirst]
        exact hstep.trans hok
      · rw [hends 0 (by omega)]
        simp
  obtain ⟨nesting, hok, hzero, hlinked⟩ := hloop
  have hquotes : ∀ f ∈ word.fragments, f.quote ≠ .dollarSingle := by
    intro f hf
    rw [hfs, List.mem_append] at hf
    rcases hf with hf | hf
    · unfold leadFragments at hf
      split at hf
      · simp at hf
      · simp only [List.mem_singleton] at hf
        simp [hf]
    · exact hlays.not_dollar f hf
  refine ⟨⟨endsOf word nesting, fun _ => []⟩, ?_, hzero, hlinked⟩
  simp only [prepare, h.kind, h.nulFree, hok, decodeLoop_plain hquotes]
  rfl

/-! ### The root fragments -/

/-- The fragments of a list of parts, counted. -/
def sizes (parts : List Part) : ℕ := (parts.map Part.size).sum

theorem Part.size_pos (part : Part) : 0 < part.size := by
  cases part with
  | quote => exact Nat.one_pos
  | single text => cases text <;> simp [Part.size]

/-- The indices of the root fragments of the parts. -/
def roots : List Part → ℕ → List ℕ
  | [], _ => []
  | part :: parts, i => i :: roots parts (i + part.size)

theorem Lays.length_eq {o i : ℕ} (h : Lays parts o i gs) :
    gs.length = sizes parts := by
  induction h with
  | nil => rfl
  | quote start finish _ ih => simp [sizes, Part.size, ih, Nat.add_comm]
  | empty start finish _ ih => simp [sizes, Part.size, ih, Nat.add_comm]
  | single hne start finish start' finish' _ ih =>
    simp only [List.length_cons, ih, sizes, List.map_cons, List.sum_cons, Part.size_single hne]
    omega

/-- Following the ends from the first part visits the root fragments. -/
theorem siblingsFrom_linked {i : ℕ} {next : ℕ → ℕ} (h : Linked parts i next)
    {steps : ℕ} (hsteps : sizes parts ≤ steps) :
    siblingsFrom next (i + sizes parts) steps i = roots parts i := by
  induction parts generalizing i steps with
  | nil =>
    cases steps with
    | zero => rfl
    | succ steps => simp [siblingsFrom, sizes, roots]
  | cons part parts ih =>
    have hpos := part.size_pos
    have hsum : sizes (part :: parts) = part.size + sizes parts := by simp [sizes]
    obtain ⟨steps, rfl⟩ : ∃ k, steps = k + 1 := ⟨steps - 1, by omega⟩
    rw [siblingsFrom, if_pos (by omega), h.1, roots, hsum, ← Nat.add_assoc]
    rw [ih h.2 (by omega)]

/-- The fragments below no parent. -/
theorem children_root {word : Token}
    (h : QuotedWord word lead parts) {next : ℕ → ℕ} (hzero : lead ≠ [] → next 0 = 1)
    (hlinked : Linked parts (base lead) next) :
    children word next none = (if lead = [] then [] else [0]) ++ roots parts (base lead) := by
  obtain ⟨start, finish, gs, hfs, hlays⟩ := h.fragments
  have hcount : word.fragments.length = base lead + sizes parts := by
    rw [hfs, List.length_append, length_leadFragments, hlays.length_eq]
  have hall : children word next none =
      siblingsFrom next (base lead + sizes parts) (base lead + sizes parts) 0 := by
    simp [children, hcount]
  rw [hall]
  by_cases hlead : lead = []
  · have hbase : base lead = 0 := by simp [base, hlead]
    rw [hbase] at hlinked ⊢
    rw [if_pos hlead, List.nil_append]
    exact siblingsFrom_linked hlinked (by omega)
  · have hbase : base lead = 1 := by simp [base, hlead]
    rw [hbase] at hlinked ⊢
    rw [if_neg hlead, Nat.add_comm 1, siblingsFrom, if_pos (by omega), hzero hlead, Nat.add_comm _ 1,
      siblingsFrom_linked hlinked (Nat.le_refl _)]
    rfl

/-! ### The walk -/

section Walk

variable {env : ExpandEnv} {word : Token} {prepared : Prepared} {options : ExpandOptions F}

theorem length_slice {raw : Bytes} {begin stop : ℕ} (h : stop ≤ raw.length) :
    (slice raw begin stop).length = stop - begin := by
  simp only [slice, List.length_take, List.length_drop]
  omega

/-- Text without a tilde is read up to its end. -/
theorem textLoop_plain {s : State F} {parent : Option ℕ} {tilde : Tilde} {f : Fragment}
    {origin : ExpandOrigin} {stop rangeStop p run : ℕ} {tildeOk : Bool} {out : Expansion}
    (hraw : stop ≤ word.raw.length) (hp : p ≤ stop)
    (h : f.quote = .none → ∀ j < stop, word.raw[j]? ≠ some (byteOf '~')) :
    ∃ tildeOk', textLoop env word prepared s parent tilde f origin stop rangeStop p run tildeOk out =
      (out, stop, run, tildeOk') := by
  induction hn : stop - p using Nat.strong_induction_on generalizing p tildeOk with
  | h n ih =>
    rw [textLoop]
    by_cases hlt : p < stop
    · have hplain : (tildeOk && f.quote == .none && word.raw[p]? == some (byteOf '~')) = false := by
        by_cases hquote : f.quote = .none
        · simp [h hquote p hlt]
        · simp [hquote]
      -- a character does not reach behind the slice it is read from
      have hlen := @length_slice _ p _ hraw
      have hne : slice word.raw p stop ≠ [] := by
        intro hnil
        rw [hnil, List.length_nil] at hlen
        omega
      have hle := env.lexical.characterLength_final_le hne
      rw [hlen] at hle
      rw [dif_pos hlt, hplain]
      simp only [Bool.false_eq_true, if_false]
      exact ih (stop - (p + max 1 _)) (by omega) (by omega) rfl
    · have hend : p = stop := Nat.le_antisymm hp (Nat.le_of_not_lt hlt)
      rw [dif_neg hlt, hend]
      exact ⟨tildeOk, rfl⟩

/-- A text fragment without a tilde is appended whole. -/
theorem rangeLoop_text {ranger : Ranger F} {parent : Option ℕ} {stop : ℕ} {origin : ExpandOrigin}
    {tilde : Tilde} {i : ℕ} {rest : List ℕ} {tildeOk : Bool} {work : Work F} {out : Expansion}
    {f : Fragment} (hf : word.fragments[i]? = some f) (hkind : f.kind = .text)
    (hlt : f.begin < f.stop) (hstop : f.stop ≤ stop) (hraw : f.stop ≤ word.raw.length)
    (h : f.quote = .none → ∀ j < f.stop, word.raw[j]? ≠ some (byteOf '~')) :
    ∃ tildeOk', rangeLoop env word prepared options ranger parent stop origin tilde (i :: rest)
        f.begin tildeOk work out =
      rangeLoop env word prepared options ranger parent stop origin tilde rest f.stop tildeOk' work
        (append out (slice word.raw f.begin f.stop) f.quote origin (f.quote != .none)) := by
  obtain ⟨tildeOk', htext⟩ := @textLoop_plain F env word prepared work.state parent tilde f
    origin f.stop stop f.begin f.begin tildeOk out hraw (Nat.le_of_lt hlt) h
  have hinside : (decide (f.stop ≤ f.begin) || decide (stop ≤ f.begin)) = false := by
    simp only [Bool.or_eq_false_iff, decide_eq_false_iff_not]
    omega
  refine ⟨tildeOk', ?_⟩
  rw [rangeLoop]
  simp only [hf, hinside, Bool.false_eq_true, if_false, max_self, min_eq_left hstop, hkind, htext,
    flushText, if_pos hlt]

/-- The span of a quoted part. -/
def Part.span (part : Part) : Span := ⟨part.meaning, .single, .literal, false, true⟩

/-- The next span goes behind these spans of the only field. -/
def Continues (out : Expansion) (spans : List Span) (context : ExpandContext) : Prop :=
  ∀ bytes quote keep, append out bytes quote .literal keep =
    ⟨[spans ++ [⟨bytes, quote, .literal, false, keep⟩]], context⟩

theorem continues_field (spans : List Span) (context : ExpandContext) :
    Continues ⟨[spans], context⟩ spans context := by
  intro bytes quote keep
  simp [append]

/-- The first span makes the field. -/
theorem continues_nothing : Continues {} [] .argument := by
  intro bytes quote keep
  simp [append]

/-- The walk over one part, given what its root fragment expands to. -/
theorem rangeLoop_part {ranger : Ranger F} {part : Part} {parts : List Part} {stop i : ℕ}
    {tilde : Tilde} {tildeOk : Bool} {work : Work F} {out : Expansion} {spans : List Span}
    {context : ExpandContext} (hout : Continues out spans context) {f : Fragment} (hget : word.fragments[i]? = some f) (htext : f.kind ≠ .text)
    (hcontinuation : f.kind ≠ .continuation) (hlt : f.begin < f.stop) (hstop : f.stop ≤ stop)
    (hwhole : ∀ out, wholeFragment env word prepared options ranger i f .literal work out =
      ⟨.ok, work, append out part.meaning .single .literal true⟩) :
    rangeLoop env word prepared options ranger none stop .literal tilde (roots (part :: parts) i)
        f.begin tildeOk work out =
      rangeLoop env word prepared options ranger none stop .literal tilde
        (roots parts (i + part.size)) f.stop false work ⟨[spans ++ [part.span]], context⟩ := by
  rw [roots, rangeLoop_whole hget htext hcontinuation (Nat.le_refl _) hstop hlt, hwhole, hout]
  simp [Reply.andThen, Part.span]

/-- The text of a quoted region. -/
theorem range_region {i o stack : ℕ} {text : Bytes} {start finish : Position} {work : Work F}
    {out : Expansion} (hne : text ≠ []) (hnext : prepared.next i = i + 2)
    (hget : word.fragments[i + 1]? =
      some ⟨.text, .single, some i, o + 1, o + 1 + text.length, start, finish⟩)
    (hraw : o + 1 + text.length ≤ word.raw.length)
    (hslice : slice word.raw (o + 1) (o + 1 + text.length) = text) :
    range env word prepared options (stack + 1) (some i) (o + 1) (o + 1 + text.length) .literal .off
        work out = ⟨.ok, work, append out text .single .literal true⟩ := by
  have hchild : children word prepared.next (some i) = [i + 1] := by
    simp [children, siblingsFrom, hnext]
  have hpos : 0 < text.length := List.length_pos_iff.mpr hne
  obtain ⟨tildeOk', hloop⟩ := @rangeLoop_text F env word prepared options
    (range env word prepared options stack) (some i) (o + 1 + text.length) .literal .off (i + 1) []
    (Tilde.off != .off) work out _ hget rfl (show o + 1 < o + 1 + text.length by omega)
    (Nat.le_refl _) hraw (fun hquote => by simp at hquote)
  rw [range, hchild]
  refine hloop.trans ?_
  rw [rangeLoop, hslice]
  rfl

/-- The walk appends one span for each part. -/
theorem rangeLoop_parts {o i : ℕ} (h : Lays parts o i gs)
    {fs : List Fragment} {pre : Bytes} (hfs : word.fragments = fs ++ gs) (hi : i = fs.length)
    (hraw : word.raw = pre ++ spelling parts) (ho : o = pre.length)
    (hlinked : Linked parts i prepared.next) {stack : ℕ} {tilde : Tilde} {tildeOk : Bool}
    {work : Work F} {out : Expansion} {spans : List Span} {context : ExpandContext}
    (hout : Continues out spans context) (hsome : parts ≠ [] ∨ out = ⟨[spans], context⟩) :
    rangeLoop env word prepared options (range env word prepared options (stack + 1)) none
        word.raw.length .literal tilde (roots parts i) o tildeOk work out =
      ⟨.ok, work, ⟨[spans ++ parts.map Part.span], context⟩⟩ := by
  induction h generalizing fs pre tildeOk out spans with
  | @nil o i =>
    have hfield := hsome.resolve_left (by simp)
    simp [roots, rangeLoop, hfield]
  | @quote parts o i gs start finish _ ih =>
    have hspell : word.raw = pre ++ [byteOf '\\', tick] ++ spelling parts := by
      simp [hraw, Part.spelling]
    have hsplit : word.fragments =
        fs ++ [⟨.escape, .none, none, o, o + 2, start, finish⟩] ++ gs := by simp [hfs]
    have hget : word.fragments[i]? = some ⟨.escape, .none, none, o, o + 2, start, finish⟩ := by
      simp [hfs, hi]
    have hslice : slice word.raw (o + 1) (o + 2) = [tick] := by
      have hmid := slice_middle (pre ++ [byteOf '\\']) [tick] (spelling parts)
      rw [hspell, ho, show pre ++ [byteOf '\\', tick] = (pre ++ [byteOf '\\']) ++ [tick] by simp]
      rwa [List.length_append] at hmid
    have hrest := @ih _ _ hsplit (by simp [hi]) hspell (by simp [ho]) hlinked.2 false _
      (spans ++ [Part.span .quote]) (continues_field _ _) (Or.inr rfl)
    refine (@rangeLoop_part F env word prepared options _ .quote parts word.raw.length i tilde tildeOk
      work out spans context hout _ hget (by simp) (by simp) (by simp) (by simp [hspell, ho]) ?_).trans ?_
    · intro out
      simp only [wholeFragment, hslice, Part.meaning]
    · simpa [Part.size] using hrest
  | @empty parts o i gs start finish _ ih =>
    have hspell : word.raw = pre ++ (tick :: [] ++ [tick]) ++ spelling parts := by
      simp [hraw, Part.spelling]
    have hsplit : word.fragments =
        fs ++ [⟨.quoted, .single, none, o, o + 2, start, finish⟩] ++ gs := by simp [hfs]
    have hget : word.fragments[i]? = some ⟨.quoted, .single, none, o, o + 2, start, finish⟩ := by
      simp [hfs, hi]
    have hchild : children word prepared.next (some i) = [] := by
      simp [children, siblingsFrom, hlinked.1, Part.size]
    have hrest := @ih _ _ hsplit (by simp [hi]) hspell (by simp [ho]) hlinked.2 false _
      (spans ++ [Part.span (.single [])]) (continues_field _ _) (Or.inr rfl)
    refine (@rangeLoop_part F env word prepared options _ (.single []) parts word.raw.length i tilde
      tildeOk work out spans context hout _ hget (by simp) (by simp) (by simp) (by simp [hspell, ho])
      ?_).trans ?_
    · intro out
      simp only [wholeFragment, quotedRegion, hchild, Part.meaning]
      rfl
    · simpa [Part.size] using hrest
  | @single parts o i gs text hne start finish start' finish' _ ih =>
    have hspell : word.raw = pre ++ (tick :: text ++ [tick]) ++ spelling parts := by
      simp [hraw, Part.spelling]
    have hsplit : word.fragments =
        fs ++ [⟨.quoted, .single, none, o, o + text.length + 2, start, finish⟩,
          ⟨.text, .single, some i, o + 1, o + 1 + text.length, start', finish'⟩] ++ gs := by
      simp [hfs]
    have hget : word.fragments[i]? =
        some ⟨.quoted, .single, none, o, o + text.length + 2, start, finish⟩ := by simp [hfs, hi]
    have hinner : word.fragments[i + 1]? =
        some ⟨.text, .single, some i, o + 1, o + 1 + text.length, start', finish'⟩ := by
      simp [hfs, hi]
    have hlen : o + text.length + 2 ≤ word.raw.length := by
      rw [hspell, ho]
      simp only [List.length_append, List.length_cons, List.length_nil]
      omega
    have hslice : slice word.raw (o + 1) (o + 1 + text.length) = text := by
      have hmid := slice_middle (pre ++ [tick]) text ([tick] ++ spelling parts)
      rw [hspell, ho, show pre ++ (tick :: text ++ [tick]) ++ spelling parts =
        (pre ++ [tick]) ++ text ++ ([tick] ++ spelling parts) by simp]
      rwa [List.length_append] at hmid
    have hsize : Part.size (.single text) = 2 := Part.size_single hne
    have hnext : prepared.next i = i + 2 := by rw [hlinked.1, hsize]
    have hlinked' : Linked parts (i + 2) prepared.next := by
      rw [← hsize]
      exact hlinked.2
    have hrest := @ih _ _ hsplit (by simp [hi]) hspell (by simp [ho]; omega) hlinked' false _
      (spans ++ [Part.span (.single text)]) (continues_field _ _) (Or.inr rfl)
    refine (@rangeLoop_part F env word prepared options _ (.single text) parts word.raw.length i tilde
      tildeOk work out spans context hout _ hget (by simp) (by simp) (by simp; omega) hlen ?_).trans ?_
    · intro out
      have hchild : children word prepared.next (some i) = [i + 1] := by
        simp [children, siblingsFrom, hnext]
      have hcontent : ([i + 1].any fun child =>
          (word.fragments[child]?.map Fragment.kind) != some .continuation) = true := by
        simp [hinner]
      have hquote : ¬Quote.single = Quote.dollarSingle := by decide
      simp only [wholeFragment, quotedRegion, hquote, if_false, hchild, hcontent, if_true]
      rw [show o + text.length + 2 - 1 = o + 1 + text.length by omega]
      exact range_region hne hnext hinner (by omega) hslice
    · rw [hsize]
      simpa using hrest

/-- The spans of the field. -/
def wordSpans (lead : Bytes) (parts : List Part) : List Span :=
  (if lead = [] then [] else [⟨lead, .none, .literal, false, false⟩]) ++ parts.map Part.span

/-- The walk over the whole word. -/
theorem range_quotedWord (h : QuotedWord word lead parts)
    (hzero : lead ≠ [] → prepared.next 0 = 1) (hlinked : Linked parts (base lead) prepared.next)
    {stack : ℕ} {work : Work F} :
    range env word prepared options (stack + 2) none 0 word.raw.length .literal .word work {} =
      ⟨.ok, work, ⟨[wordSpans lead parts], .argument⟩⟩ := by
  obtain ⟨start, finish, gs, hfs, hlays⟩ := h.fragments
  have hlen := length_leadFragments lead start finish
  rw [range, children_root h hzero hlinked]
  rw [hlen] at hlays
  by_cases hlead : lead = []
  · have hparts : parts ≠ [] := h.nonempty.resolve_left fun hne => hne hlead
    have ho : 0 = lead.length := by simp [hlead]
    rw [if_pos hlead, List.nil_append, ho]
    rw [rangeLoop_parts hlays hfs hlen.symm h.raw rfl hlinked continues_nothing (Or.inl hparts)]
    simp [wordSpans, hlead]
  · have hbase : base lead = 1 := by simp [base, hlead]
    have hget : word.fragments[0]? = some ⟨.text, .none, none, 0, lead.length, start, finish⟩ := by
      simp [hfs, leadFragments, hlead]
    have hlength : lead.length ≤ word.raw.length := by simp [h.raw]
    have htilde : ∀ j < lead.length, word.raw[j]? ≠ some (byteOf '~') := by
      intro j hj hj'
      rw [h.raw, List.getElem?_append_left hj] at hj'
      exact (ordinary_spec (h.ordinary _ (List.mem_of_getElem? hj'))).2 (by decide)
    have hslice : slice word.raw 0 lead.length = lead := by simp [slice, h.raw]
    obtain ⟨tildeOk', hloop⟩ := @rangeLoop_text F env word prepared options
      (range env word prepared options (stack + 1)) none word.raw.length .literal .word 0
      (roots parts (base lead)) (Tilde.word != .off) work {} _ hget rfl
      (List.length_pos_iff.mpr hlead) hlength hlength (fun _ => htilde)
    rw [if_neg hlead, List.singleton_append]
    refine hloop.trans ?_
    rw [hslice, continues_nothing, rangeLoop_parts hlays hfs hlen.symm h.raw rfl hlinked
      (continues_field _ _) (Or.inr rfl)]
    simp [wordSpans, hlead]

/-- **The word expands to one field of its spans.** -/
theorem expandWord_quotedWord (h : QuotedWord word lead parts)
    {stack : ℕ} (hstack : 2 ≤ stack) {s : State F} (hsave : s.save = some s)
    (hcontext : options.context = .argument) :
    expandWord env stack s word options = ⟨.ok, s, ⟨[wordSpans lead parts], .argument⟩, {}⟩ := by
  obtain ⟨prepared, hprepare, hzero, hlinked⟩ := prepare_quotedWord h env
  obtain ⟨k, rfl⟩ := Nat.exists_eq_add_of_le' hstack
  simp only [expandWord, hprepare, hsave, hcontext, rootTilde]
  rw [range_quotedWord h hzero hlinked]
  rfl

end Walk

end Quoting
end CShell
