import CShell.Lexer.Shape

/-!
# Words the expander accepts

`prepare` reads a word again from its spelling: it follows the preorder list with a
stack of its own, and looks for the delimiters of every fragment.  A finished word
of the lexer passes all of its checks, and its root fragments are the spelling from
beginning to end.

## Main results

* `Sealed.passes` — the spelling of a closed fragment passes `fragment_syntax`.
* `Shape.accepted` — a finished word passes the first loop of `prepare`.
* `Shape.tiled` — its root fragments tile the spelling.

## References

`src/expand.c` (`prepare`, `fragment_syntax`, `command_continuation`).
-/

namespace CShell
namespace Lexical

open Expand List

/-! ### Spans from their beginning -/

theorem Spells.cases_head {chars w : Bytes} (h : Spells chars w) :
    (chars = [] ∧ w = []) ∨
      (∃ w', w = byteOf '\\' :: byteOf '\n' :: w' ∧ Spells chars w') ∨
      ∃ c cs w', chars = c :: cs ∧ w = c :: w' ∧ Spells cs w' := by
  induction h with
  | nil => exact .inl ⟨rfl, rfl⟩
  | continuation _ ih =>
    rcases ih with ⟨rfl, rfl⟩ | ⟨w', rfl, hw⟩ | ⟨c, cs, w', rfl, rfl, hw⟩
    · exact .inr (.inl ⟨[], rfl, .nil⟩)
    · exact .inr (.inl ⟨_, rfl, hw.continuation⟩)
    · exact .inr (.inr ⟨c, cs, _, rfl, rfl, hw.continuation⟩)
  | char _ byte ih =>
    rcases ih with ⟨rfl, rfl⟩ | ⟨w', rfl, hw⟩ | ⟨c, cs, w', rfl, rfl, hw⟩
    · exact .inr (.inr ⟨byte, [], [], rfl, rfl, .nil⟩)
    · exact .inr (.inl ⟨_, rfl, hw.char byte⟩)
    · exact .inr (.inr ⟨c, _, _, rfl, rfl, hw.char byte⟩)

/-- A span begins with a continuation or with its first character. -/
theorem Spans.cases_head {chars w : Bytes} (h : Spans chars w) :
    (∃ w', w = byteOf '\\' :: byteOf '\n' :: w' ∧ Spans chars w') ∨
      ∃ c cs w', chars = c :: cs ∧ w = c :: w' ∧ (cs = [] ∧ w' = [] ∨ Spans cs w') := by
  obtain ⟨init, text, byte, rfl, rfl, hspells⟩ := h
  rcases hspells.cases_head with ⟨rfl, rfl⟩ | ⟨w', rfl, hw⟩ | ⟨c, cs, w', rfl, rfl, hw⟩
  · exact .inr ⟨byte, [], [], rfl, rfl, .inl ⟨rfl, rfl⟩⟩
  · exact .inl ⟨_, rfl, init, w', byte, rfl, rfl, hw⟩
  · exact .inr ⟨c, _, _, rfl, rfl, .inr ⟨cs, w', byte, rfl, rfl, hw⟩⟩

theorem Spans.length_pos {chars w : Bytes} (h : Spans chars w) : 0 < w.length := by
  obtain ⟨init, text, byte, -, rfl, -⟩ := h
  rw [length_append, length_singleton]
  exact Nat.succ_pos _

theorem Spans.getLast {chars w : Bytes} {byte : UInt8} (h : Spans (chars ++ [byte]) w) :
    w.getLast? = some byte := by
  obtain ⟨init, text, last, heq, rfl, -⟩ := h
  obtain ⟨-, hlast⟩ := append_inj' heq rfl
  cases hlast
  exact getLast?_concat

section Logical

variable {raw : Bytes} {pos stop : ℕ}

theorem logical_continuation (h₁ : raw[pos]? = some (byteOf '\\'))
    (h₂ : raw[pos + 1]? = some (byteOf '\n')) (hlt : pos + 1 < stop) :
    logical raw pos stop = logical raw (pos + 2) stop := by
  have hskip : skipContinuations raw pos stop = skipContinuations raw (pos + 2) stop := by
    rw [skipContinuations, if_pos ⟨hlt, h₁, h₂⟩]
  unfold logical
  rw [hskip]

theorem logical_char {c : UInt8} (h : raw[pos]? = some c) (hc : c ≠ byteOf '\\')
    (hlt : pos < stop) : logical raw pos stop = (some c, pos + 1) := by
  have hskip : skipContinuations raw pos stop = pos := by
    rw [skipContinuations, if_neg]
    rintro ⟨-, h', -⟩
    rw [h] at h'
    exact hc (Option.some.inj h')
  unfold logical
  rw [hskip]
  dsimp only
  rw [if_pos hlt, h]

theorem getElem_of_starts {w : Bytes} (h : w <+: raw.drop pos) {i : ℕ} {b : UInt8}
    (hi : w[i]? = some b) : raw[pos + i]? = some b := by
  obtain ⟨rest, hrest⟩ := h
  have hlt := (List.getElem?_eq_some_iff.mp hi).1
  rw [← List.getElem?_drop, ← hrest, List.getElem?_append_left hlt, hi]

/-- What `logical` reads at the beginning of a span. -/
theorem logical_spans {c : UInt8} {cs w : Bytes} (h : Spans (c :: cs) w) (hc : c ≠ byteOf '\\')
    (hw : w <+: raw.drop pos) (stop : ℕ) (hle : pos + w.length ≤ stop) :
    ∃ w₁ w₂, w = w₁ ++ w₂ ∧ logical raw pos stop = (some c, pos + w₁.length) ∧
      (cs = [] ∧ w₂ = [] ∨ Spans cs w₂) := by
  generalize hn : w.length = n
  induction n using Nat.strong_induction_on generalizing w pos with
  | _ n ih =>
    rcases h.cases_head with ⟨w', rfl, hspans⟩ | ⟨c', cs', w', heq, rfl, hrest⟩
    · have hw' : w' <+: raw.drop (pos + 2) := by
        obtain ⟨rest, hrest⟩ := hw
        refine ⟨rest, ?_⟩
        rw [← drop_drop, ← hrest]
        rfl
      rw [length_cons, length_cons] at hn hle
      have hpos := hspans.length_pos
      obtain ⟨w₁, w₂, rfl, hlogical, hrest⟩ := ih w'.length (by omega) hspans hw' (by omega) rfl
      refine ⟨byteOf '\\' :: byteOf '\n' :: w₁, w₂, rfl, ?_, hrest⟩
      have h₁ : raw[pos]? = some (byteOf '\\') := getElem_of_starts (i := 0) hw rfl
      have h₂ : raw[pos + 1]? = some (byteOf '\n') := getElem_of_starts (i := 1) hw rfl
      rw [logical_continuation h₁ h₂ (by omega), hlogical, length_cons, length_cons]
      congr 1
      omega
    · cases heq
      refine ⟨[c], w', rfl, ?_, hrest⟩
      rw [length_cons] at hle
      exact logical_char (getElem_of_starts (i := 0) hw rfl) hc (by omega)

theorem starts_suffix {w₁ w₂ : Bytes} (h : w₁ ++ w₂ <+: raw.drop pos) :
    w₂ <+: raw.drop (pos + w₁.length) := by
  obtain ⟨rest, hrest⟩ := h
  refine ⟨rest, ?_⟩
  rw [← drop_drop, ← hrest, append_assoc, drop_left]

/-- What `logical` reads at a span of two characters. -/
theorem logical_pair {a b : UInt8} {o : Bytes} (h : Spans [a, b] o) (ha : a ≠ byteOf '\\')
    (hb : b ≠ byteOf '\\') (ho : o <+: raw.drop pos) (stop : ℕ) (hle : pos + o.length ≤ stop) :
    (logical raw pos stop).1 = some a ∧
      logical raw (logical raw pos stop).2 stop = (some b, pos + o.length) := by
  obtain ⟨w₁, w₂, rfl, hfirst, hrest⟩ := logical_spans h ha ho stop hle
  have hspans : Spans [b] w₂ := hrest.resolve_left fun h => by cases h.1
  rw [length_append] at hle
  obtain ⟨w₃, w₄, rfl, hsecond, hend⟩ :=
    logical_spans hspans hb (starts_suffix ho) stop (by omega)
  have hnil : w₄ = [] := by
    rcases hend with ⟨-, hnil⟩ | hspans'
    · exact hnil
    · obtain ⟨init, _, _, heq, -⟩ := hspans'
      have := congrArg length heq
      rw [length_append, length_singleton] at this
      cases this
  subst hnil
  rw [hfirst]
  refine ⟨rfl, ?_⟩
  rw [hsecond, append_nil, length_append]
  congr 1
  omega

end Logical

/-! ### The end of an arithmetic expansion -/

section Trim

variable {raw : Bytes} {begin stop : ℕ}

/-- Continuations are not skipped beyond another byte. -/
theorem le_trimContinuations {k : ℕ} {b : UInt8} (hb : raw[k]? = some b) (h₁ : b ≠ byteOf '\\')
    (h₂ : b ≠ byteOf '\n') (hk : k < stop) : k < trimContinuations raw begin stop := by
  fun_induction trimContinuations raw begin stop with
  | case1 stop h ih =>
    obtain ⟨hle, hslash, hnewline⟩ := h
    apply ih
    rcases Nat.lt_trichotomy (k + 2) stop with hlt | rfl | hgt
    · omega
    · rw [Nat.add_sub_cancel] at hslash
      rw [hslash] at hb
      exact absurd (Option.some.inj hb).symm h₁
    · have heq : stop - 1 = k := by omega
      rw [heq, hb] at hnewline
      exact absurd (Option.some.inj hnewline) h₂
  | case2 stop h => exact hk

/-- The continuations behind a character are skipped. -/
theorem trimContinuations_spells {w : Bytes} {b : UInt8} {p : ℕ} (h : Spells [b] w)
    (hb : b ≠ byteOf '\n') (hw : w <+: raw.drop p) (hp : begin ≤ p) :
    ∃ q, trimContinuations raw begin (p + w.length) = q + 1 ∧ p ≤ q ∧ raw[q]? = some b := by
  generalize hchars : [b] = chars at h
  induction h with
  | nil => cases hchars
  | @continuation chars w h ih =>
    obtain ⟨q, hq, hle, hget⟩ := ih ((prefix_append _ _).trans hw) hchars
    refine ⟨q, ?_, hle, hget⟩
    have hend := starts_suffix hw
    have h₁ : raw[p + w.length]? = some (byteOf '\\') := getElem_of_starts (i := 0) hend rfl
    have h₂ : raw[p + w.length + 1]? = some (byteOf '\n') := getElem_of_starts (i := 1) hend rfl
    rw [length_append, ← Nat.add_assoc, trimContinuations, if_pos]
    · exact hq
    · exact ⟨by simp only [length_cons]; omega, h₁, h₂⟩
  | @char chars w h byte ih =>
    obtain ⟨-, hbyte⟩ := append_inj' (show [] ++ [b] = chars ++ [byte] from hchars) rfl
    cases hbyte
    have hlast : raw[p + w.length]? = some b := getElem_of_starts (i := 0) (starts_suffix hw) rfl
    refine ⟨p + w.length, ?_, Nat.le_add_right _ _, hlast⟩
    rw [length_append, length_singleton, ← Nat.add_assoc, trimContinuations, if_neg]
    rintro ⟨-, -, hnewline⟩
    rw [Nat.add_sub_cancel, hlast] at hnewline
    exact hb (Option.some.inj hnewline)

/-- The closing delimiters of an arithmetic expansion are found behind its opening. -/
theorem trimDelimiters_closing {c : Bytes} {p : ℕ} (h : Spans closing c) (hc : c <+: raw.drop p)
    (hp : begin < p) {k : ℕ} {b : UInt8} (hk : raw[k]? = some b) (hkp : k < p) (h₁ : b ≠ byteOf '\\') (h₂ : b ≠ byteOf '\n') :
    ∃ stop, trimDelimiters raw begin (p + c.length) 2 = some stop ∧ k < stop := by
  obtain ⟨init, text, byte, heq, rfl, hspells⟩ := h
  obtain ⟨hinit, hbyte⟩ :=
    append_inj' (show [byteOf ')'] ++ [byteOf ')'] = init ++ [byte] from heq) rfl
  cases hbyte
  subst hinit
  have htext : text <+: raw.drop p := (prefix_append _ _).trans hc
  have hlast : raw[p + text.length]? = some (byteOf ')') :=
    getElem_of_starts (i := 0) (starts_suffix hc) rfl
  obtain ⟨q, hq, hle, hget⟩ := trimContinuations_spells hspells (by decide) htext hp.le
  refine ⟨trimContinuations raw begin q, ?_, le_trimContinuations hk h₁ h₂ (by omega)⟩
  have hfirst : p + (text ++ [byteOf ')']).length - 1 = p + text.length := by
    rw [length_append, length_singleton]
    omega
  rw [trimDelimiters, hfirst, hlast, hq, if_neg, trimDelimiters, Nat.add_sub_cancel, hget, if_neg,
    trimDelimiters]
  · simp only [bne_self_eq_false, Bool.or_false, decide_eq_true_eq]
    omega
  · simp only [bne_self_eq_false, Bool.or_false, decide_eq_true_eq, length_append]
    omega

end Trim

/-! ### One fragment -/

section Fragment

variable {d : Decoder} {raw : Bytes} {f : Fragment} {w : Bytes}

theorem getLast_of_starts {pos : ℕ} (h : w <+: raw.drop pos) {b : UInt8}
    (hb : w.getLast? = some b) : raw[pos + w.length - 1]? = some b := by
  have hpos : 0 < w.length := length_pos_iff.mpr (ne_nil_of_mem (mem_of_getLast? hb))
  rw [Nat.add_sub_assoc hpos]
  exact getElem_of_starts h (by rw [← getLast?_eq_getElem?, hb])

/-- The lengths `prepare` asks for. -/
theorem Sealed.length (h : Sealed d f w) :
    (f.kind = .text ∨ 2 ≤ w.length) ∧ (f.kind = .arithmetic → 5 ≤ w.length) := by
  unfold Sealed at h
  have hle : ∀ {chars o : Bytes}, Spans chars o → chars.length ≤ o.length :=
    fun hspans => hspans.spells.length_le
  cases hk : f.kind with
  | text => exact ⟨.inl rfl, fun h => by cases h⟩
  | continuation =>
    simp only [hk] at h
    subst h
    exact ⟨.inr (Nat.le_refl _), fun h => by cases h⟩
  | escape =>
    simp only [hk] at h
    obtain ⟨c, rfl, hpos, -⟩ := h
    refine ⟨.inr ?_, fun h => by cases h⟩
    rw [length_cons]
    omega
  | quoted =>
    simp only [hk] at h
    refine ⟨.inr ?_, fun h => by cases h⟩
    cases hq : f.quote with
    | none =>
      rw [hq] at h
      exact h.elim
    | single =>
      rw [hq] at h
      obtain ⟨v, rfl⟩ := h
      simp
    | double =>
      rw [hq] at h
      obtain ⟨v, rfl⟩ := h
      simp
    | dollarSingle =>
      rw [hq] at h
      obtain ⟨o, v, rfl, hspans⟩ := h
      have := hle hspans
      simp only [length_append, length_cons, length_nil] at this ⊢
      omega
  | backquote =>
    simp only [hk] at h
    obtain ⟨v, rfl⟩ := h
    exact ⟨.inr (by simp), fun h => by cases h⟩
  | parameter =>
    simp only [hk] at h
    refine ⟨.inr ?_, fun h => by cases h⟩
    rcases h with ⟨o, v, rfl, hspans⟩ | ⟨o, v, byte, rfl, hspans, -⟩
    · have := hle hspans
      simp only [length_append, length_cons, length_nil] at this ⊢
      omega
    · have := hle hspans
      simp only [length_append, length_cons, length_nil] at this ⊢
      omega
  | command =>
    simp only [hk] at h
    obtain ⟨o, v, rfl, hspans⟩ := h
    refine ⟨.inr ?_, fun h => by cases h⟩
    have := hle hspans
    simp only [length_append, length_cons, length_nil] at this ⊢
    omega
  | arithmetic =>
    simp only [hk] at h
    obtain ⟨o, v, c, rfl, hopen, hclose⟩ := h
    have h₁ := hle hopen
    have h₂ := hle hclose
    simp only [length_append, closing, length_cons, length_nil] at h₁ h₂ ⊢
    exact ⟨.inr (by omega), fun _ => by omega⟩

/-- The spelling of a closed fragment passes `fragment_syntax`. -/
theorem Sealed.passes (h : Sealed d f w) (hw : w <+: raw.drop f.begin)
    (hstop : f.stop = f.begin + w.length) : fragmentSyntax d raw f = true := by
  have hlength := h.length
  have hfirst : ∀ {b : UInt8} {v : Bytes}, w = b :: v → raw[f.begin]? = some b := by
    intro b v heq
    exact getElem_of_starts (i := 0) hw (by rw [heq]; rfl)
  have hlast : ∀ {b : UInt8}, w.getLast? = some b → raw[f.stop - 1]? = some b := by
    intro b hb
    rw [hstop]
    exact getLast_of_starts hw hb
  unfold Sealed at h
  unfold fragmentSyntax
  cases hk : f.kind with
  | text => rfl
  | continuation =>
    simp only [hk] at h ⊢
    have h₁ : raw[f.begin + 1]? = some (byteOf '\n') :=
      getElem_of_starts (i := 1) hw (by rw [h]; rfl)
    rw [hfirst h, h₁, hstop, h]
    simp
  | escape =>
    simp only [hk] at h ⊢
    obtain ⟨c, rfl, hpos, hwidth⟩ := h
    have hslice : slice raw (f.begin + 1) f.stop = c := by
      obtain ⟨rest, hrest⟩ := hw
      unfold slice
      rw [← drop_drop, ← hrest, hstop, length_cons,
        show f.begin + (c.length + 1) - (f.begin + 1) = c.length by omega]
      exact take_left
    rw [hfirst rfl, hslice, hwidth, hstop, length_cons,
      show f.begin + (c.length + 1) - f.begin = c.length + 1 by omega]
    simp
    omega
  | quoted =>
    simp only [hk] at h ⊢
    cases hq : f.quote with
    | none =>
      rw [hq] at h
      exact h.elim
    | single =>
      rw [hq] at h
      obtain ⟨v, rfl⟩ := h
      simp only
      rw [hfirst rfl, hlast getLast?_concat]
      simp
    | double =>
      rw [hq] at h
      obtain ⟨v, rfl⟩ := h
      simp only
      rw [hfirst rfl, hlast getLast?_concat]
      simp
    | dollarSingle =>
      rw [hq] at h
      obtain ⟨o, v, rfl, hspans⟩ := h
      have ho : o <+: raw.drop f.begin := by
        rw [append_assoc] at hw
        exact (prefix_append _ _).trans hw
      simp only [length_append, length_singleton] at hstop
      obtain ⟨h₁, h₂⟩ := logical_pair hspans (by decide) (by decide) ho f.stop (by omega)
      simp only
      rw [h₁, h₂, hlast getLast?_concat]
      simp
      omega
  | backquote =>
    simp only [hk] at h ⊢
    obtain ⟨v, rfl⟩ := h
    rw [hfirst rfl, hlast getLast?_concat]
    simp
  | parameter =>
    simp only [hk] at h ⊢
    rcases h with ⟨o, v, rfl, hspans⟩ | ⟨o, v, byte, rfl, hspans, hbyte⟩
    · have ho : o <+: raw.drop f.begin := by
        rw [append_assoc] at hw
        exact (prefix_append _ _).trans hw
      simp only [length_append, length_singleton] at hstop
      obtain ⟨h₁, h₂⟩ := logical_pair hspans (by decide) (by decide) ho f.stop (by omega)
      rw [h₁, h₂, hlast getLast?_concat]
      simp
      omega
    · have ho : o <+: raw.drop f.begin := (prefix_append _ _).trans hw
      simp only [length_append] at hstop
      have hne : byte ≠ byteOf '\\' := by
        rintro rfl
        revert hbyte
        decide
      have hbrace : (byte == byteOf '\x7b') = false := by
        rw [beq_eq_false_iff_ne]
        rintro rfl
        revert hbyte
        decide
      obtain ⟨h₁, h₂⟩ := logical_pair hspans (by decide) hne ho f.stop (by omega)
      rw [h₁, h₂]
      simp only [hbrace, Bool.false_eq_true, if_false]
      rcases hbyte with hbyte | hbyte
      · simp [hbyte]
      · simp [hbyte]
  | command =>
    simp only [hk] at h ⊢
    obtain ⟨o, v, rfl, hspans⟩ := h
    have ho : o <+: raw.drop f.begin := by
      rw [append_assoc] at hw
      exact (prefix_append _ _).trans hw
    simp only [length_append, length_singleton] at hstop
    obtain ⟨h₁, h₂⟩ := logical_pair hspans (by decide) (by decide) ho f.stop (by omega)
    rw [h₁, h₂, hlast getLast?_concat]
    simp
    omega
  | arithmetic =>
    simp only [hk] at h ⊢
    obtain ⟨o, v, c, rfl, hopen, hclose⟩ := h
    have hc := starts_suffix hw
    rw [append_assoc] at hw
    have ho : o <+: raw.drop f.begin := (prefix_append _ _).trans hw
    -- The opening ends with a parenthesis, so that trimming stops behind it.
    have hparen := getLast_of_starts ho
      (show Spans ([byteOf '$', byteOf '('] ++ [byteOf '(']) o from hopen).getLast
    have hpos := hopen.length_pos
    have hbegin : f.begin < f.begin + (o ++ v).length := by
      rw [length_append]
      omega
    obtain ⟨stop, htrim, hlt⟩ := trimDelimiters_closing hclose hc hbegin hparen
      (by rw [length_append]; omega) (by decide) (by decide)
    have hend : f.stop = f.begin + (o ++ v).length + c.length := by
      rw [hstop]
      simp only [length_append]
      omega
    rw [hend, htrim]
    obtain ⟨w₁, w₂, rfl, h₁, hrest⟩ := logical_spans hopen (by decide) ho stop (by omega)
    have hspans : Spans [byteOf '(', byteOf '('] w₂ := hrest.resolve_left fun h => by cases h.1
    have hle : f.begin + w₁.length + w₂.length ≤ stop := by
      rw [length_append] at hlt
      omega
    obtain ⟨h₂, h₃⟩ := logical_pair hspans (by decide) (by decide) (starts_suffix ho) stop hle
    simp only
    rw [h₁]
    simp only
    rw [h₂, h₃]
    rfl

/-- A continuation in the opening of a command substitution. -/
theorem commandContinuation_opening {g : Fragment} {o : Bytes} (hk : f.kind = .continuation)
    (ho : o <+: raw.drop g.begin) (hspans : Spans [byteOf '$', byteOf '('] o)
    (hstop : f.stop ≤ g.begin + o.length) (hle : g.begin + o.length ≤ g.stop) :
    commandContinuation raw g f = true := by
  obtain ⟨h₁, h₂⟩ := logical_pair hspans (by decide) (by decide) ho g.stop hle
  unfold commandContinuation
  simp only [hk, h₁, h₂]
  simpa using hstop

end Fragment

/-! ### The loop of `prepare` -/

section Prepare

variable {d : Decoder} {word : Token}

theorem prepareLoop_append (fs gs : List Fragment) (i : ℕ) (nesting : Nesting) :
    prepareLoop d word (fs ++ gs) i nesting =
      match prepareLoop d word fs i nesting with
      | .error e => .error e
      | .ok nesting => prepareLoop d word gs (i + fs.length) nesting := by
  induction fs generalizing i nesting with
  | nil => rfl
  | cons f fs ih =>
    rw [cons_append, prepareLoop, prepareLoop, length_cons, Nat.add_comm fs.length 1,
      ← Nat.add_assoc]
    split
    · rfl
    · split
      · rfl
      · exact ih _ _

/-- The stack is unwound to the parent of a fragment. -/
theorem close_append {parent : Option ℕ} (i : ℕ) {popped kept : List ℕ} (previous : ℕ)
    (next : ℕ → ℕ) (hp : parent = kept.head?) (hne : ∀ j ∈ popped, parent ≠ some j) :
    ∃ previous' next', Nesting.close word i parent (popped ++ kept) previous next =
        ⟨kept, previous', next'⟩ ∧
      (popped = [] ∧ previous' = previous ∨
        ∃ j ∈ popped, previous' = (word.fragments[j]?.map Fragment.stop).getD 0) := by
  induction popped generalizing previous next with
  | nil =>
    refine ⟨previous, next, ?_, .inl ⟨rfl, rfl⟩⟩
    cases kept with
    | nil => rfl
    | cons top kept =>
      rw [nil_append, Nesting.close]
      exact if_pos hp
  | cons top popped ih =>
    have hrest := fun j hj => hne j (mem_cons_of_mem _ hj)
    obtain ⟨previous', next', hclose, hprevious⟩ :=
      ih ((word.fragments[top]?.map Fragment.stop).getD 0) (fun j => if j = top then i else next j)
        hrest
    refine ⟨previous', next', ?_, .inr ?_⟩
    · rw [cons_append, Nesting.close, if_neg (hne top mem_cons_self)]
      exact hclose
    · rcases hprevious with ⟨-, rfl⟩ | ⟨j, hj, rfl⟩
      · exact ⟨top, mem_cons_self, rfl⟩
      · exact ⟨j, mem_cons_of_mem _ hj, rfl⟩

/-- The checks of `prepare` on a fragment of a finished word. -/
theorem Shape.checks (h : Shape d word.raw word.fragments []) {i : ℕ} {f : Fragment}
    (hi : word.fragments[i]? = some f) {parent : Option Fragment}
    (hparent : parent = f.parent.bind fun p => word.fragments[p]?)
    (hsome : ∀ p, f.parent = some p → ∃ g, word.fragments[p]? = some g ∧ g.begin ≤ f.begin)
    {previous : ℕ} (hprevious : previous ≤ f.begin) :
    structured word f parent previous = true ∧ spelled d word f parent = true := by
  obtain ⟨hle, hend, hsealed⟩ := h.core.closed i f hi not_mem_nil
  have hlength : (slice word.raw f.begin f.stop).length = f.stop - f.begin := by
    unfold slice
    rw [length_take, length_drop]
    omega
  have hpasses := hsealed.passes (List.take_prefix _ _) (by rw [hlength]; omega)
  obtain ⟨htwo, hfive⟩ := hsealed.length
  rw [hlength] at htwo hfive
  have hkinds : (f.kind == .text || decide (2 ≤ f.stop - f.begin)) = true ∧
      (f.kind != .arithmetic || decide (5 ≤ f.stop - f.begin)) = true := by
    constructor
    · rcases htwo with hk | hk
      · simp [hk]
      · simp [hk]
    · by_cases hk : f.kind = .arithmetic
      · simp [hfive hk]
      · simp [hk]
  unfold structured spelled
  rw [hpasses]
  cases hp : f.parent with
  | none =>
    rw [hp] at hparent
    subst hparent
    simp only [Option.bind_none, Option.isNone_none, hkinds.1, hkinds.2, hprevious, hle, hend,
      decide_true, Bool.and_true, and_self]
  | some p =>
    obtain ⟨g, hg, hbegin⟩ := hsome p hp
    rw [hp, Option.bind_some, hg] at hparent
    subst hparent
    have hinner := h.core.nested i f p g hi hp hg
    have hstop := hinner.stop not_mem_nil
    constructor
    · simp only [hkinds.1, hkinds.2, hprevious, hle, hend, hbegin, hstop, decide_true,
        Bool.and_true]
    · have hleaf := hinner.branch
      have hcommand : g.kind = .command → commandContinuation word.raw g f = true := by
        intro hk
        obtain ⟨o, ho, hspans, hin, hout⟩ := h.inside i f p g hi hp hg hk
        exact commandContinuation_opening (hinner.command hk) ho hspans hin
          (hout not_mem_nil)
      cases hk : g.kind with
      | command => simp [hk, hcommand hk]
      | text =>
        rw [hk] at hleaf
        cases hleaf
      | escape =>
        rw [hk] at hleaf
        cases hleaf
      | continuation =>
        rw [hk] at hleaf
        cases hleaf
      | _ => simp [hk]

/-- The loop follows a preorder list with its own stack. -/
theorem prepareLoop_laid (h : Shape d word.raw word.fragments []) {fs : List Fragment}
    {stack : List ℕ} (hlaid : Laid fs stack) (hfs : fs <+: word.fragments) :
    ∃ nesting, prepareLoop d word fs 0 {} = .ok nesting ∧ nesting.stack = stack ∧
      ∀ f, fs.getLast? = some f → nesting.previous = f.begin := by
  induction hlaid with
  | nil => exact ⟨{}, rfl, rfl, fun f hf => by cases hf⟩
  | @snoc fs popped kept f hlaid hp hc hb hr ih =>
    obtain ⟨nesting, hloop, hstack, hbegin⟩ := ih ((prefix_append _ _).trans hfs)
    have hold : ∀ {j : ℕ} {g : Fragment}, fs[j]? = some g → word.fragments[j]? = some g := by
      intro j g hj
      obtain ⟨rest, hrest⟩ := hfs
      rw [← hrest, List.append_assoc, List.getElem?_append_left (List.getElem?_eq_some_iff.mp hj).1,
        hj]
    have hself : word.fragments[fs.length]? = some f := by
      obtain ⟨rest, hrest⟩ := hfs
      rw [← hrest, append_assoc, getElem?_append_right (Nat.le_refl _), Nat.sub_self]
      rfl
    have hsorted := pairwise_append.mp hlaid.sorted
    have hne : ∀ j ∈ popped, f.parent ≠ some j := by
      intro j hj heq
      rw [hp] at heq
      exact Nat.lt_irrefl _ (hsorted.2.2 j hj j (mem_of_mem_head? heq))
    obtain ⟨previous, next, hclose, hprevious⟩ :=
      @close_append word _ fs.length _ _ nesting.previous nesting.next hp hne
    have hget : ∀ j ∈ popped ++ kept, ∃ g, fs[j]? = some g := by
      intro j hj
      exact ⟨_, getElem?_eq_getElem (hlaid.lt j hj)⟩
    -- What was closed last ends before the fragment, or nothing was closed.
    have hle : previous ≤ f.begin := by
      rcases hprevious with ⟨hnil, rfl⟩ | ⟨j, hj, rfl⟩
      · cases hlast : fs.getLast? with
        | none =>
          rw [getLast?_eq_none_iff] at hlast
          subst hlast
          cases hloop
          exact Nat.zero_le _
        | some g =>
          rw [hbegin g hlast]
          exact hb g (mem_of_getLast? hlast)
      · obtain ⟨g, hg⟩ := hget j (mem_append_left _ hj)
        rw [hold hg]
        refine hc j g hg ?_
        intro hkept
        exact Nat.lt_irrefl _ (hsorted.2.2 j hj j hkept)
    have hsome : ∀ p, f.parent = some p →
        ∃ g, word.fragments[p]? = some g ∧ g.begin ≤ f.begin := by
      intro p hparent
      rw [hp] at hparent
      obtain ⟨g, hg⟩ := hget p (mem_append_right _ (mem_of_mem_head? hparent))
      exact ⟨g, hold hg, hb g (mem_of_getElem? hg)⟩
    have hparent : (kept.head?.bind fun top => word.fragments[top]?) =
        f.parent.bind fun p => word.fragments[p]? := by rw [hp]
    obtain ⟨hstructured, hspelled⟩ := h.checks hself hparent hsome hle
    refine ⟨⟨fs.length :: kept, f.begin, next⟩, ?_, rfl, ?_⟩
    · rw [prepareLoop_append, hloop]
      dsimp only
      rw [Nat.zero_add, prepareLoop, hstack, hclose]
      simp only [hstructured, hspelled, Bool.not_true, Bool.false_eq_true, if_false]
      rfl
    · intro g hg
      rw [getLast?_concat] at hg
      cases hg
      rfl

/-- A finished word passes the checks of `prepare`. -/
theorem Shape.accepted (h : Shape d word.raw word.fragments []) :
    ∃ nesting, prepareLoop d word word.fragments 0 {} = .ok nesting := by
  obtain ⟨stack, hlaid, -⟩ := h.core.laid
  obtain ⟨nesting, hloop, -⟩ := prepareLoop_laid h hlaid (prefix_refl _)
  exact ⟨nesting, hloop⟩

/-- A dollar-single-quoted fragment that passed `fragment_syntax` is only rejected for
its contents. -/
theorem decodeFragment_cases {env : ExpandEnv} {f : Fragment} (hk : f.kind = .quoted)
    (hq : f.quote = .dollarSingle) (hs : fragmentSyntax env.lexical word.raw f = true) :
    (∃ text, decodeFragment env word f = .ok text) ∨
      decodeFragment env word f = .error (ascii "dollar-single-quote decoding failed") := by
  unfold fragmentSyntax at hs
  simp only [hk, hq, Bool.and_eq_true, beq_iff_eq, decide_eq_true_eq] at hs
  obtain ⟨⟨⟨hfirst, hsecond⟩, hlt⟩, hlast⟩ := hs
  unfold decodeFragment
  dsimp only
  rw [if_neg]
  · split
    · exact .inr rfl
    · exact .inl ⟨_, rfl⟩
  · simp only [hfirst, hsecond, hlast, bne_self_eq_false, Bool.or_false, Bool.false_or,
      decide_eq_true_eq]
    omega

theorem decodeLoop_cases {env : ExpandEnv} {fs : List Fragment} (i : ℕ) (decoded : ℕ → Bytes)
    (hs : ∀ f ∈ fs, fragmentSyntax env.lexical word.raw f = true) :
    (∃ decoded', decodeLoop env word fs i decoded = .ok decoded') ∨
      ∃ j, decodeLoop env word fs i decoded =
        .error (j, ascii "dollar-single-quote decoding failed") := by
  induction fs generalizing i decoded with
  | nil => exact .inl ⟨_, rfl⟩
  | cons f fs ih =>
    have hrest := fun g hg => hs g (mem_cons_of_mem _ hg)
    rw [decodeLoop]
    split
    · rename_i hkind
      rw [Bool.and_eq_true] at hkind
      rcases decodeFragment_cases (of_decide_eq_true hkind.1) (of_decide_eq_true hkind.2)
        (hs f mem_cons_self) with ⟨text, heq⟩ | heq
      · rw [heq]
        exact ih _ _ hrest
      · rw [heq]
        exact .inr ⟨i, rfl⟩
    · exact ih _ _ hrest

/-- `prepare` rejects a finished word only for the contents of its dollar-single
quotes. -/
theorem Shape.prepared {env : ExpandEnv} (h : Shape env.lexical word.raw word.fragments [])
    (hk : word.kind = .word) (h0 : NulFree word.raw) :
    (∃ prepared, prepare env word = .ok prepared) ∨
      ∃ i, prepare env word = .error (some (i, ascii "dollar-single-quote decoding failed")) := by
  have hpasses : ∀ f ∈ word.fragments, fragmentSyntax env.lexical word.raw f = true := by
    intro f hf
    obtain ⟨i, hi⟩ := mem_iff_getElem?.mp hf
    obtain ⟨hle, hend, hsealed⟩ := h.core.closed i f hi not_mem_nil
    refine hsealed.passes (List.take_prefix _ _) ?_
    unfold slice
    rw [length_take, length_drop]
    omega
  obtain ⟨nesting, hloop⟩ := h.accepted
  have hguard : (word.kind != .word || word.raw.contains 0) = false := by
    rw [hk, Bool.or_eq_false_iff]
    exact ⟨rfl, by simpa [NulFree] using h0⟩
  unfold prepare
  rw [hguard, hloop]
  simp only [Bool.false_eq_true, if_false]
  rcases @decodeLoop_cases word env word.fragments 0 (fun _ => []) hpasses with
    ⟨decoded, heq⟩ | ⟨j, heq⟩
  · rw [heq]
    exact .inl ⟨_, rfl⟩
  · rw [heq]
    exact .inr ⟨j, rfl⟩

end Prepare

/-! ### Root fragments -/

/-- Fragments that follow each other without a gap from `a` to `b`. -/
def Contiguous : ℕ → List Fragment → ℕ → Prop
  | a, [], b => a = b
  | a, f :: fs, b => f.begin = a ∧ Contiguous f.stop fs b

/-- The fragments that have no parent. -/
def roots (fragments : List Fragment) : List Fragment :=
  fragments.filter fun f => f.parent.isNone

theorem Contiguous.append {a b : ℕ} {fs : List Fragment} (h : Contiguous a fs b) {f : Fragment}
    (hf : f.begin = b) : Contiguous a (fs ++ [f]) f.stop := by
  induction fs generalizing a with
  | nil => exact ⟨hf.trans h.symm, rfl⟩
  | cons g fs ih => exact ⟨h.1, ih h.2⟩

theorem Laid.tiled {fragments : List Fragment} {stack : List ℕ} (h : Laid fragments stack) :
    Contiguous 0 (roots fragments) (rootStop fragments stack) := by
  induction h with
  | nil => rfl
  | @snoc fragments popped kept f h hp hc hb hr ih =>
    unfold roots
    rw [filter_append]
    cases kept with
    | nil =>
      rw [append_nil, hr rfl] at ih
      rw [head?_nil] at hp
      have hroot : [f].filter (fun f => f.parent.isNone) = [f] := by simp [hp]
      have hstop : rootStop (fragments ++ [f]) [fragments.length] = f.stop := by
        unfold rootStop
        simp
      rw [hroot, hstop]
      exact ih.append rfl
    | cons k kept =>
      have hroot : [f].filter (fun f => f.parent.isNone) = [] := by simp [hp]
      have hlast : (fragments.length :: k :: kept).getLast? = (popped ++ k :: kept).getLast? := by
        rw [getLast?_append_of_ne_nil _ (cons_ne_nil _ _), getLast?_cons_cons]
      have hstop : rootStop (fragments ++ [f]) (fragments.length :: k :: kept) =
          rootStop fragments (popped ++ k :: kept) := by
        unfold rootStop
        rw [hlast]
        cases hi : (popped ++ k :: kept).getLast? with
        | none => rfl
        | some i =>
          have hlt := h.lt i (mem_of_getLast? hi)
          simp only [Option.bind_some]
          rw [getElem?_append_left hlt]
      rw [hroot, append_nil, hstop]
      exact ih

/-- The root fragments of a finished word are its spelling from beginning to end. -/
theorem Shape.tiled {d : Decoder} {raw : Bytes} {fragments : List Fragment}
    (h : Shape d raw fragments []) : Contiguous 0 (roots fragments) raw.length := by
  obtain ⟨stack, hlaid, -, hroot⟩ := h.core.laid
  rw [← hroot rfl]
  exact hlaid.tiled

end Lexical
end CShell
