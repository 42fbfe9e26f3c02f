import CShell.Execute.Reading
import CShell.Expand.Cutting
import CShell.Lexer.Spelling

/-!
# Assignment words

The parser and the executor both ask whether a word is an assignment.  `assignment` of
the parser walks over the text of the word up to its `=`.  `assignment_name` of the
executor collects the name on the way, does not look at fragments that are inside others,
and answers with the place behind the `=`, where `expand` cuts the word in two.

Inside another fragment there is text only behind something that is neither text nor a
continuation, so the two agree on every word that a run of the lexer returns.

## Main definitions

* `Bare f` — a piece of a name: root text without quotes, or a continuation.
* `Prefixed token name offset` — the word begins with a name and an unquoted `=`.

## Main results

* `assignment_eq` — **the parser and the executor recognise the same words.**
* `assignmentName_prefixed` — what the executor finds.
* `words_assigned` — **every assignment word of a run can be cut behind its `=`, and in a
  clean run the expander accepts what is left.**

## References

`src/parser.c` (`assignment`), `src/prepare.c` (`assignment_name`, `expand`),
`src/expand.c` (`prepare`).
-/

namespace CShell
namespace Execute

open Parse Lexical Expand List

variable {token : Token} {pre fs : List Fragment} {used : Bytes}

/-! ### Two recognisers -/

theorem bytes_agree (text : Bytes) (place : ℕ) (used : Bytes) :
    assignment.bytes text used.length =
      match assignmentName.bytes text place used with
      | .inl used => .inl used.length
      | .inr answer => .inr answer.isSome := by
  induction text generalizing place used with
  | nil => rfl
  | cons byte rest ih =>
    rw [assignment.bytes, assignmentName.bytes]
    by_cases hequals : byte = byteOf '='
    · subst hequals
      rw [if_pos rfl]
      cases used with
      | nil => rfl
      | cons first used => rfl
    · have hempty : decide (used.length ≠ 0) = !used.isEmpty := by cases used <;> rfl
      have hname : ¬(byte = byteOf '=' ∧ used ≠ []) := fun h => hequals h.1
      rw [if_neg hequals, if_neg hname, hempty]
      split
      · have := ih (place + 1) (used ++ [byte])
        rwa [length_append, length_singleton] at this
      · rfl

/-- Behind nothing but text and continuations a fragment has no parent. -/
theorem root_of_leaves (h : Outline token.raw token.fragments []) {f : Fragment} {rest : List Fragment}
    (hsplit : token.fragments = pre ++ f :: rest) (hpre : ∀ g ∈ pre, isLeaf g.kind = true) :
    f.parent = none := by
  have hf : token.fragments[pre.length]? = some f := by
    rw [hsplit, getElem?_append_right (Nat.le_refl _), Nat.sub_self]
    rfl
  cases hp : f.parent with
  | none => rfl
  | some p =>
    have hlt := h.parent_lt hf hp
    have hget : token.fragments[p]? = some pre[p] := by
      rw [hsplit, getElem?_append_left hlt, getElem?_eq_getElem hlt]
    have hbranch := h.branch hf hp hget
    rw [hpre _ (getElem_mem hlt)] at hbranch
    cases hbranch

theorem go_agree (h : Outline token.raw token.fragments []) (hsplit : token.fragments = pre ++ fs)
    (hpre : ∀ g ∈ pre, isLeaf g.kind = true) (used : Bytes) :
    assignment.go token fs used.length = (assignmentName.go token fs used).isSome := by
  induction fs generalizing pre used with
  | nil => rfl
  | cons f rest ih =>
    have hroot := root_of_leaves h hsplit hpre
    have hsplit' : token.fragments = (pre ++ [f]) ++ rest := by rw [hsplit, append_assoc]; rfl
    have hgo : isLeaf f.kind = true → ∀ g ∈ pre ++ [f], isLeaf g.kind = true := by
      intro hleaf g hg
      rcases mem_append.mp hg with hg | hg
      · exact hpre g hg
      · rwa [mem_singleton.mp hg]
    rw [assignment.go, assignmentName.go]
    by_cases hcontinuation : f.kind = .continuation
    · rw [if_pos hcontinuation, if_pos hcontinuation]
      exact ih hsplit' (hgo (by rw [hcontinuation]; rfl)) used
    · rw [if_neg hcontinuation, if_neg hcontinuation]
      by_cases htext : f.kind = .text ∧ f.quote = .none
      · rw [if_pos htext, if_pos ⟨htext.1, htext.2, hroot⟩, bytes_agree _ f.begin]
        cases assignmentName.bytes (fragmentBytes token f) f.begin used with
        | inl used => exact ih hsplit' (hgo (by rw [htext.1]; rfl)) used
        | inr answer => rfl
      · rw [if_neg htext, if_neg fun h => htext ⟨h.1, h.2.1⟩]
        rfl

/-- **The parser and the executor recognise the same words.** -/
theorem assignment_eq (h : Outline token.raw token.fragments []) :
    assignment token = (assignmentName token).isSome :=
  go_agree h (nil_append _).symm (fun _ hg => by cases hg) []

/-! ### What the executor finds -/

/-- A piece of a name: root text without quotes, or a continuation. -/
def Bare (f : Fragment) : Prop :=
  f.parent = none ∧ (f.kind = .continuation ∨ f.kind = .text ∧ f.quote = .none)

theorem Bare.leaf {f : Fragment} (h : Bare f) : isLeaf f.kind = true := by
  rcases h.2 with hk | hk
  · rw [hk]
    rfl
  · rw [hk.1]
    rfl

/-- A word that begins with a name and an `=`: the `=` ends the first `offset` bytes, it is
the first there is, it is root text without quotes, and the name is the text before it
without its continuations. -/
structure Prefixed (token : Token) (name : Bytes) (offset : ℕ) : Prop where
  valid : validName name = true
  equals : ∃ before after, token.raw = before ++ byteOf '=' :: after ∧
    offset = before.length + 1 ∧ spliced before = name ∧ byteOf '=' ∉ before
  unquoted : ∃ f ∈ token.fragments, f.kind = .text ∧ f.quote = .none ∧ f.parent = none ∧
    f.begin < offset ∧ offset ≤ f.stop

section

variable (hvalid : used = [] ∨ validName used = true)
include hvalid

theorem valid_step {byte : UInt8} (hb : (nameStart byte || (!used.isEmpty && digit byte)) = true) :
    validName (used ++ [byte]) = true := by
  apply validName_concat hvalid
  simpa [List.isEmpty_iff] using hb

/-- A fragment that is read to its end adds its bytes to the name. -/
theorem bytes_inl {text : Bytes} {place : ℕ} {used' : Bytes}
    (h : assignmentName.bytes text place used = .inl used') :
    used' = used ++ text ∧ (used' = [] ∨ validName used' = true) := by
  induction text generalizing place used with
  | nil =>
    cases h
    exact ⟨(append_nil _).symm, hvalid⟩
  | cons byte rest ih =>
    rw [assignmentName.bytes] at h
    split at h
    · cases h
    · split at h
      · rename_i hb
        obtain ⟨heq, hvalid'⟩ := ih (.inr (valid_step hvalid hb)) h
        exact ⟨by rw [heq, append_assoc]; rfl, hvalid'⟩
      · cases h

/-- A fragment that ends the name has the `=` behind the rest of it. -/
theorem bytes_inr {text name : Bytes} {place offset : ℕ} (h : assignmentName.bytes text place used = .inr (some (name, offset))) :
    ∃ before after, text = before ++ byteOf '=' :: after ∧ name = used ++ before ∧
      offset = place + before.length + 1 ∧ validName name = true := by
  induction text generalizing place used with
  | nil => cases h
  | cons byte rest ih =>
    rw [assignmentName.bytes] at h
    split at h
    · rename_i hb
      cases h
      obtain ⟨rfl, hne⟩ := hb
      exact ⟨[], rest, rfl, (append_nil _).symm, rfl, hvalid.resolve_left hne⟩
    · split at h
      · rename_i hb
        obtain ⟨before, after, rfl, rfl, rfl, hname⟩ := ih (.inr (valid_step hvalid hb)) h
        refine ⟨byte :: before, after, rfl, ?_, ?_, hname⟩
        · rw [append_assoc]
          rfl
        · rw [length_cons]
          omega
      · cases h

end

theorem contiguous_begin {a b c : ℕ} {f : Fragment} (h : Contiguous a (pre ++ f :: fs) b)
    (hpre : Contiguous a pre c) : f.begin = c := by
  induction pre generalizing a with
  | nil => exact h.1.trans hpre
  | cons g pre ih => exact ih h.2 hpre.2

theorem roots_append (hpre : ∀ g ∈ pre, g.parent = none) (fs : List Fragment) :
    roots (pre ++ fs) = pre ++ roots fs := by
  unfold roots
  rw [filter_append, filter_eq_self.mpr]
  intro g hg
  rw [hpre g hg]
  rfl

theorem spells_text {chars w : Bytes} (h : Spells chars w) (text : Bytes) :
    Spells (chars ++ text) (w ++ text) := by
  induction text generalizing chars w with
  | nil =>
    rw [append_nil, append_nil]
    exact h
  | cons byte text ih =>
    rw [append_cons chars, append_cons w]
    exact ih (h.char byte)

theorem fragmentBytes_eq (token : Token) (f : Fragment) :
    fragmentBytes token f = slice token.raw f.begin f.stop := by
  unfold fragmentBytes slice
  rw [extract_eq_take_drop]

/-- The bytes up to the end of a fragment. -/
theorem take_stop {raw : Bytes} {f : Fragment} (h : f.begin ≤ f.stop) :
    raw.take f.stop = raw.take f.begin ++ slice raw f.begin f.stop := by
  unfold slice
  rw [← take_add, Nat.add_sub_cancel' h]

/-- The loop of `assignment_name`, behind a row of pieces of the name. -/
theorem go_spec (h : Outline token.raw token.fragments []) {a : ℕ}
    (hsplit : token.fragments = pre ++ fs) (hpre : ∀ g ∈ pre, Bare g) (hrow : Contiguous 0 pre a)
    (hspells : Spells used (token.raw.take a)) (hvalid : used = [] ∨ validName used = true)
    {name : Bytes} {offset : ℕ} (hgo : assignmentName.go token fs used = some (name, offset)) :
    ∃ pre' f rest before after, token.fragments = pre' ++ f :: rest ∧ (∀ g ∈ pre', Bare g) ∧
      (f.kind = .text ∧ f.quote = .none ∧ f.parent = none) ∧ f.begin < offset ∧ offset ≤ f.stop ∧
      token.raw = before ++ byteOf '=' :: after ∧ offset = before.length + 1 ∧
      Spells name before ∧ validName name = true := by
  induction fs generalizing pre used a with
  | nil => cases hgo
  | cons f rest ih =>
    have hroot := root_of_leaves h hsplit fun g hg => (hpre g hg).leaf
    have hmem : f ∈ token.fragments := by
      rw [hsplit]
      exact mem_append_right _ mem_cons_self
    obtain ⟨hle, hend⟩ := h.within hmem
    have hbegin : f.begin = a := by
      have htiled := h.tiled
      rw [hsplit, roots_append fun g hg => (hpre g hg).1] at htiled
      have hroots : roots (f :: rest) = f :: roots rest := by
        unfold roots
        rw [filter_cons_of_pos (by rw [hroot]; rfl)]
      rw [hroots] at htiled
      exact contiguous_begin htiled hrow
    have hsplit' : token.fragments = (pre ++ [f]) ++ rest := by rw [hsplit, append_assoc]; rfl
    have hrow' : Contiguous 0 (pre ++ [f]) f.stop := hrow.append hbegin
    have hpre' : Bare f → ∀ g ∈ pre ++ [f], Bare g := by
      intro hbare g hg
      rcases mem_append.mp hg with hg | hg
      · exact hpre g hg
      · rwa [mem_singleton.mp hg]
    have htake : token.raw.take f.stop = token.raw.take a ++ slice token.raw f.begin f.stop := by
      rw [take_stop hle, hbegin]
    rw [assignmentName.go] at hgo
    split at hgo
    · rename_i hcontinuation
      refine ih hsplit' (hpre' ⟨hroot, .inl hcontinuation⟩) hrow' ?_ hvalid hgo
      rw [htake, h.joined hmem hcontinuation]
      exact hspells.continuation
    · split at hgo
      · rename_i htext
        have hbare : Bare f := ⟨hroot, .inr ⟨htext.1, htext.2.1⟩⟩
        rw [fragmentBytes_eq] at hgo
        cases hbytes : assignmentName.bytes (slice token.raw f.begin f.stop) f.begin used with
        | inl used' =>
          rw [hbytes] at hgo
          obtain ⟨rfl, hvalid'⟩ := bytes_inl hvalid hbytes
          refine ih hsplit' (hpre' hbare) hrow' ?_ hvalid' hgo
          rw [htake]
          exact spells_text hspells _
        | inr answer =>
          rw [hbytes] at hgo
          have hanswer : answer = some (name, offset) := hgo
          subst hanswer
          obtain ⟨before, after, hslice, rfl, rfl, hname⟩ := bytes_inr hvalid hbytes
          have hlength := congrArg length hslice
          unfold slice at hlength
          rw [length_take, length_drop, length_append, length_cons] at hlength
          refine ⟨pre, f, rest, token.raw.take a ++ before, after ++ token.raw.drop f.stop, hsplit,
            hpre, htext, by omega, by omega, ?_, ?_, spells_text hspells _, hname⟩
          · conv_lhs => rw [← take_append_drop f.stop token.raw, htake, hslice]
            simp
          · rw [length_append, length_take, hbegin]
            omega
      · cases hgo

/-- A name with continuations before an `=` holds nothing else. -/
theorem mem_before {name before : Bytes} (hspells : Spells name before)
    (hname : validName name = true) {byte : UInt8} (hmem : byte ∈ before) :
    nameByte byte = true ∨ byte = byteOf '\\' ∨ byte = byteOf '\n' :=
  (hspells.mem hmem).imp_left (nameByte_of_mem hname byte)

/-- **What the executor takes for an assignment begins with a name and an unquoted `=`, and
can be cut behind it.** -/
theorem assignmentName_prefixed (h : Outline token.raw token.fragments []) {name : Bytes}
    {offset : ℕ} (hname : assignmentName token = some (name, offset)) :
    Prefixed token name offset ∧ Parted token offset := by
  obtain ⟨pre, f, rest, before, after, hsplit, hpre, ⟨hkind, hquote, hroot⟩, hbegin, hstop, hraw,
    hoffset, hspells, hvalid⟩ :=
    go_spec h (nil_append _).symm (fun _ hg => by cases hg) rfl (by exact .nil) (.inl rfl) hname
  have hf : token.fragments[pre.length]? = some f := by
    rw [hsplit, getElem?_append_right (Nat.le_refl _), Nat.sub_self]
    rfl
  have hmem := mem_of_getElem? hf
  have hleaf : isLeaf f.kind = true := by
    rw [hkind]
    rfl
  have hspliced := hspells.spliced_append
    (fun hmem => absurd (nameByte_of_mem hvalid _ hmem) (by decide)) []
  rw [append_nil] at hspliced
  have hequals : byteOf '=' ∉ before := by
    intro hmem
    rcases mem_before hspells hvalid hmem with hb | hb | hb <;> revert hb <;> decide
  have htake : token.raw.take offset = before ++ [byteOf '='] := by
    rw [hraw, hoffset, append_cons]
    exact take_left' (by rw [length_append, length_singleton])
  refine ⟨⟨hvalid, ⟨before, after, hraw, hoffset, ?_, hequals⟩,
    f, hmem, hkind, hquote, hroot, hbegin, hstop⟩, h, ?_, ?_, ?_⟩
  · rw [hspliced]
    exact append_nil _
  · exact hstop.trans (h.within hmem).2
  · -- Fragments before the `=` are pieces of the name, and the others lie behind it.
    intro g hg hlt
    obtain ⟨j, hj⟩ := mem_iff_getElem?.mp hg
    rcases Nat.lt_trichotomy j pre.length with hbefore | rfl | hbehind
    · have hpiece : g ∈ pre := by
        rw [hsplit, getElem?_append_left hbefore] at hj
        exact mem_of_getElem? hj
      obtain ⟨hparent, hk⟩ := hpre g hpiece
      have hstop' := h.behind hj hf hbefore (hpre g hpiece).leaf
      refine ⟨hparent, ?_⟩
      rcases hk with hk | hk
      · exact .inr ⟨hk, by omega⟩
      · exact .inl hk.1
    · rw [hf] at hj
      cases hj
      exact ⟨hroot, .inl hkind⟩
    · have := h.behind hf hj hbehind hleaf
      omega
  · rw [htake]
    intro hzero
    rcases mem_append.mp hzero with hzero | hzero
    · rcases mem_before hspells hvalid hzero with hb | hb | hb <;> revert hb <;> decide
    · revert hzero
      decide

/-! ### Words of a run -/

/-- **Every assignment word of a run can be cut behind its `=`, and in a clean run the
expander accepts what is left.**  The parser and the executor recognise the same words, the
offset lies behind the first unquoted `=`, and the name before it is valid.  In a run in which
every command substitution is closed after the aliases substituted inside it, the fragments
of the word behind the cut tile what is left and pass the checks of `prepare`, which rejects
them only for what is in dollar-single quotes.  In any run a word that passes these checks
passes them behind the cut, with the same result. -/
theorem words_assigned (d : Decoder) (hd : d.Prompt) (name : Bytes) (origin : Position)
    (document : Bool) (calls : List Lexical.Call) (depth : ℕ) (t : Token)
    (hnext : (((Session.start name origin document).run d calls).machine.lexerNext d depth).1 =
      .token t) (hk : t.kind = .word) :
    (assignment t = true ↔ ∃ x offset, assignmentName t = some (x, offset)) ∧
      ∀ x offset, assignmentName t = some (x, offset) →
        Prefixed t x offset ∧
        ((Session.start name origin document).Clean d calls →
          Sliced t offset ∧
          (∃ nesting,
            Expand.prepareLoop d (cutWord t offset) (cutWord t offset).fragments 0 {} = .ok nesting) ∧
          ∀ env : ExpandEnv, env.lexical = d →
            (∃ prepared, prepare env (cutWord t offset) = .ok prepared) ∨
              ∃ i, prepare env (cutWord t offset) =
                .error (some (i, ascii "dollar-single-quote decoding failed"))) ∧
        ∀ nesting, Expand.prepareLoop d t t.fragments 0 {} = .ok nesting →
          Sliced t offset ∧ ∀ env : ExpandEnv, env.lexical = d →
            prepare env (cutWord t offset) = prepare env t := by
  have houtline := Session.words_outlined hnext hk
  refine ⟨?_, ?_⟩
  · rw [assignment_eq houtline, Option.isSome_iff_exists]
    exact ⟨fun ⟨(x, offset), h⟩ => ⟨x, offset, h⟩, fun ⟨x, offset, h⟩ => ⟨(x, offset), h⟩⟩
  · intro x offset hname
    obtain ⟨hprefixed, hparted⟩ := assignmentName_prefixed houtline hname
    refine ⟨hprefixed, ?_, ?_⟩
    · intro hclean
      obtain ⟨hshape, h0⟩ := (Session.Clean.word hd hclean hnext).2 hk
      obtain ⟨nesting, hok⟩ := hshape.accepted
      refine ⟨hparted.sliced (hparted.solid hok), ⟨nesting.cut offset, hparted.accepted hok⟩, ?_⟩
      rintro env rfl
      rw [hparted.prepare_eq env hok]
      exact hshape.prepared hk h0
    · intro nesting hok
      refine ⟨hparted.sliced (hparted.solid hok), ?_⟩
      rintro env rfl
      exact hparted.prepare_eq env hok

/-- The word of `a\⏎b=c"d"`: its name is interrupted, and the text that holds the `=` goes
on behind it. -/
def interrupted : Token :=
  { kind := .word, raw := ascii "a\\\nb=c\"d\"", start := ⟨0, 1, 1⟩, stop := ⟨9, 2, 7⟩,
    fragments := [⟨.text, .none, none, 0, 1, ⟨0, 1, 1⟩, ⟨1, 1, 2⟩⟩,
      ⟨.continuation, .none, none, 1, 3, ⟨1, 1, 2⟩, ⟨3, 2, 1⟩⟩,
      ⟨.text, .none, none, 3, 6, ⟨3, 2, 1⟩, ⟨6, 2, 4⟩⟩,
      ⟨.quoted, .double, none, 6, 9, ⟨6, 2, 4⟩, ⟨9, 2, 7⟩⟩,
      ⟨.text, .double, some 3, 7, 8, ⟨7, 2, 5⟩, ⟨8, 2, 6⟩⟩] }

theorem words_assigned_interrupted :
    assignment interrupted = true ∧ Prefixed interrupted (ascii "ab") 5 ∧ Sliced interrupted 5 ∧
      ∃ nesting, Expand.prepareLoop .posix (cutWord interrupted 5)
          (cutWord interrupted 5).fragments 0 {} =
        .ok nesting := by
  have hwords := words_assigned .posix Decoder.posix_prompt [] ⟨0, 1, 1⟩ false
    [.feed (ascii "a\\\nb=c\"d\"") true] 0 interrupted (by decide +kernel) rfl
  have hname : assignmentName interrupted = some (ascii "ab", 5) := by decide +kernel
  obtain ⟨hprefixed, hclean, -⟩ := hwords.2 (ascii "ab") 5 hname
  obtain ⟨hsliced, haccepted, -⟩ := hclean ⟨trivial, trivial⟩
  exact ⟨hwords.1.mpr ⟨_, _, hname⟩, hprefixed, hsliced, haccepted⟩

/-- `x=$(end` with the alias `end='echo )'`, whose parenthesis closes the substitution: the
word is an assignment, but what is left behind the cut has no parenthesis at its end. -/
theorem words_assigned_alias_closing :
    (((Session.start [] ⟨0, 1, 1⟩ false).run .posix aliasClosing).machine.lexerNext .posix 0).1 =
        .token aliasClosed ∧ aliasClosed.kind = .word ∧ assignment aliasClosed = true ∧
      assignmentName aliasClosed = some (ascii "x", 2) ∧
      ∀ nesting, Expand.prepareLoop .posix (cutWord aliasClosed 2)
          (cutWord aliasClosed 2).fragments 0 {} ≠
        .ok nesting := by
  refine ⟨by decide +kernel, rfl, by decide +kernel, by decide +kernel, ?_⟩
  intro nesting hloop
  have hrejected : (match Expand.prepareLoop .posix (cutWord aliasClosed 2)
      (cutWord aliasClosed 2).fragments 0 {} with
      | .ok _ => true
      | .error _ => false) = false := by decide +kernel
  rw [hloop] at hrejected
  cases hrejected

end Execute
end CShell
