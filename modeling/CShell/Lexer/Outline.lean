import CShell.Lexer.Accepted
import CShell.Lexer.Drafting

/-!
# The outline of a word

An alias may supply the parenthesis that closes the command substitution it was
substituted in.  The word around it does not capture that byte, and its fragment is
spelled without an end.  The *outline* of a word is what holds of it all the same: its
fragments are a preorder list, the roots among them tile the spelling, none is inside a
text, and the continuations are spelled as such.

It is kept by every round of the scanner, so every word with a draft has one, and every
word a run returns has a draft.

## Main definitions

* `Outline raw fragments frames` — the outline of a word with open frames.

## Main results

* `Draft.outline` — a word that has a draft has an outline.
* `Session.words_outlined` — **every word that a run returns has an outline.**
* `Outline.tiled`, `Outline.behind` — where the fragments of a finished word lie.

## References

`src/lexer.c` (`add_fragment`, `push`, `pop`, `csh_lexer_command_end`).
-/

namespace CShell
namespace Lexical

open Machine List
open Expand (slice)

variable {d : Decoder} {m m' : Machine} {raw : Bytes} {fragments : List Fragment}
  {frames : List Frame}

/-! ### Outlines -/

/-- A continuation is spelled as one, and a text is not empty. -/
def Joined (f : Fragment) (w : Bytes) : Prop :=
  (f.kind = .continuation → w = [byteOf '\\', byteOf '\n']) ∧ (f.kind = .text → w ≠ [])

/-- The outline of a word: its layout, and the fragments of its frames. -/
structure Outline (raw : Bytes) (fragments : List Fragment) (frames : List Frame) : Prop where
  sketch : Sketch Joined raw fragments (frames.map Frame.fragment)
  opened : ∀ frame ∈ frames, ∃ f, fragments[frame.fragment]? = some f ∧
    f.kind = frame.kind.fragmentKind

/-- What an outline knows of a frame. -/
def Frame.mark (frame : Frame) : FrameKind × ℕ := (frame.kind, frame.fragment)

variable {frame : Frame} {f : Fragment} {count : ℕ} {quote : Quote} {m₁ : Machine}

theorem exists_mark {frames' : List Frame} (heq : frames'.map Frame.mark = frames.map Frame.mark)
    (hframe : frame ∈ frames') :
    ∃ other ∈ frames, other.kind = frame.kind ∧ other.fragment = frame.fragment := by
  have hmem : frame.mark ∈ frames.map Frame.mark := by
    rw [← heq]
    exact mem_map_of_mem hframe
  obtain ⟨other, hother, hmark⟩ := mem_map.mp hmem
  exact ⟨other, hother, (Prod.mk.inj hmark).1, (Prod.mk.inj hmark).2⟩

namespace Outline

theorem nil : Outline [] [] [] :=
  ⟨⟨⟨[], .nil, suffix_refl _, fun _ => rfl⟩, by simp, by simp, by simp⟩, by simp⟩

/-- Frames with the same marks have the same outline. -/
theorem alike (h : Outline raw fragments frames) {frames' : List Frame}
    (heq : frames'.map Frame.mark = frames.map Frame.mark) : Outline raw fragments frames' where
  sketch := by
    have hfragments : frames'.map Frame.fragment = frames.map Frame.fragment := by
      have := congrArg (map Prod.snd) heq
      simpa [map_map, Function.comp_def, Frame.mark] using this
    rw [hfragments]
    exact h.sketch
  opened := by
    intro frame hframe
    obtain ⟨other, hother, hkind, hfragment⟩ := exists_mark heq hframe
    rw [← hkind, ← hfragment]
    exact h.opened other hother

/-- An open fragment reads on. -/
theorem read (h : Outline raw fragments frames) (hne : frames ≠ []) (more : Bytes) :
    Outline (raw ++ more) fragments frames :=
  ⟨h.sketch.read (by simpa using hne) more, h.opened⟩

/-- A piece is read; inside a command substitution it is a continuation. -/
theorem leaf (h : Outline raw fragments frames) {w : Bytes}
    (hc : (∀ frame ∈ frames.head?, frame.kind ≠ .command) ∨ f.kind = .continuation)
    (hp : f.parent = frames.head?.map Frame.fragment) (hb : f.begin = raw.length)
    (hstop : f.stop = (raw ++ w).length) (hs : Joined f w) :
    Outline (raw ++ w) (fragments ++ [f]) frames := by
  refine ⟨h.sketch.leaf (by rw [hp, head?_map]) hb hstop hs (opened_top h.opened hc), ?_⟩
  intro frame hframe
  obtain ⟨g, hg, hkind⟩ := h.opened frame hframe
  refine ⟨g, ?_, hkind⟩
  rw [List.getElem?_append_left (List.getElem?_eq_some_iff.mp hg).1, hg]

variable {g : Fragment → Fragment}

/-- A fragment that is changed keeps the kinds of all of them. -/
theorem opened_modify (h : ∀ frame ∈ frames, ∃ f, fragments[frame.fragment]? = some f ∧
      f.kind = frame.kind.fragmentKind) (j : ℕ)
    (hg : ∀ x, (g x).kind = x.kind) :
    ∀ frame ∈ frames, ∃ f, (fragments.modify j g)[frame.fragment]? = some f ∧
      f.kind = frame.kind.fragmentKind := by
  intro frame hframe
  obtain ⟨f, hf, hkind⟩ := h frame hframe
  by_cases hj : j = frame.fragment
  · refine ⟨g f, ?_, (hg f).trans hkind⟩
    rw [hj, getElem?_modify_eq, hf]
    rfl
  · exact ⟨f, by rw [getElem?_modify_ne g fragments hj, hf], hkind⟩

/-- A text goes on. -/
theorem join (h : Outline raw fragments frames)
    (hf : fragments.getLast? = some f) (hk : f.kind = .text)
    (hp : f.parent = frames.head?.map Frame.fragment) {w : Bytes}
    (hw : w ≠ [])
    (hg : ∀ x, (g x).begin = x.begin ∧ (g x).parent = x.parent ∧ (g x).kind = x.kind ∧
      (g x).stop = (raw ++ w).length) :
    Outline (raw ++ w) (fragments.modify (fragments.length - 1) g) frames := by
  refine ⟨h.sketch.join hf hk (by rw [hp, head?_map]) hg ⟨?_, ?_⟩,
    opened_modify h.opened _ fun x => (hg x).2.2.1⟩
  · intro hcontinuation
    rw [(hg f).2.2.1, hk] at hcontinuation
    cases hcontinuation
  · intro _ hnil
    have hbegin := h.sketch.begins f (mem_of_getLast? hf)
    have hpos := length_pos_iff.mpr hw
    have hlength := congrArg length hnil
    unfold slice at hlength
    rw [(hg f).1, (hg f).2.2.2, length_take, length_drop, length_append,
      length_nil] at hlength
    omega

/-- A frame is opened. -/
theorem push (h : Outline raw fragments frames)
    (hc : ∀ frame ∈ frames.head?, frame.kind ≠ .command)
    (hn : frame.fragment = fragments.length) (hk : f.kind = frame.kind.fragmentKind)
    (hp : f.parent = frames.head?.map Frame.fragment) (hb : f.begin = raw.length) :
    Outline raw (fragments ++ [f]) (frame :: frames) := by
  have hsketch := h.sketch.push (by rw [hp, head?_map]) hb (opened_top h.opened (.inl hc))
  refine ⟨by rw [map_cons, hn]; exact hsketch, ?_⟩
  intro frame' hframe
  rcases mem_cons.mp hframe with rfl | hframe
  · refine ⟨f, ?_, hk⟩
    rw [hn, getElem?_append_right (Nat.le_refl _), Nat.sub_self]
    rfl
  · obtain ⟨g, hg, hkind⟩ := h.opened frame' hframe
    refine ⟨g, ?_, hkind⟩
    rw [List.getElem?_append_left (List.getElem?_eq_some_iff.mp hg).1, hg]

/-- The innermost frame is popped. -/
theorem pop (h : Outline raw fragments (frame :: frames))
    (hg : ∀ x, (g x).begin = x.begin ∧ (g x).parent = x.parent ∧ (g x).kind = x.kind ∧
      (g x).stop = raw.length) : Outline raw (fragments.modify frame.fragment g) frames := by
  obtain ⟨f, hf, hkind⟩ := h.opened frame mem_cons_self
  have hleaf : isLeaf (g f).kind = false := by
    rw [(hg f).2.2.1, hkind]
    cases frame.kind <;> rfl
  refine ⟨h.sketch.close hf hg ⟨?_, ?_⟩,
    opened_modify (fun x hx => h.opened x (mem_cons_of_mem _ hx)) _ fun x => (hg x).2.2.1⟩
  · intro hcontinuation
    rw [hcontinuation] at hleaf
    cases hleaf
  · intro htext
    rw [htext] at hleaf
    cases hleaf

end Outline

/-! ### Rounds -/

theorem Cuts.pos {kind : FragmentKind} (h : Cuts d m kind count) : 0 < count := by
  cases h with
  | text hw => exact hw
  | escape rest hb hw => omega
  | continuation => exact Nat.zero_lt_two

section

variable (h : Outline m.lexer.raw m.lexer.fragments m.lexer.frames)
include h

/-- A piece of the word is read. -/
theorem piece_outline (hi : m.lexer.active = true) (ht : m.lexer.Scans) {kind : FragmentKind}
    (hc : Cuts d m kind count) (hp : m.piece kind quote count = .ok m') :
    Outline m'.lexer.raw m'.lexer.fragments m'.lexer.frames := by
  obtain ⟨w, finish, hlen, htook, hfragments⟩ := piece_took hp
  have hne : w ≠ [] := by
    apply ne_nil_of_length_pos
    rw [hlen]
    exact hc.pos
  rw [(piece_reads hp).frames, hfragments, htook.raw_active hi]
  split
  · rename_i hjoins
    rw [Bool.and_eq_true] at hjoins
    obtain ⟨f, hlast, hkind, hparent⟩ := extendsText_last hjoins.2
    exact h.join hlast hkind hparent hne fun x => ⟨rfl, rfl, rfl, rfl⟩
  · refine h.leaf (.inl ht) rfl rfl rfl ⟨?_, fun _ => hne⟩
    intro hkind
    have hkind' : kind = .continuation := hkind
    subst hkind'
    cases hc with
    | continuation rest hb =>
      have hunread := htook.unread
      rw [hb] at hunread
      obtain ⟨a, b, rfl⟩ := length_eq_two.mp hlen
      cases hunread
      rfl

/-- The bytes of an open fragment are read. -/
theorem delimiter_outline (hi : m.lexer.active = true) (hne : m.lexer.frames ≠ [])
    (hp : m.delimiter quote count = .ok m') :
    Outline m'.lexer.raw m'.lexer.fragments m'.lexer.frames := by
  rw [(delimiter_reads hp).frames]
  refine (@delimiter_took m m' (fun raw fragments => Outline raw fragments m.lexer.frames) quote
    count hi (fun raw fragments byte h => h.read hne [byte]) ?_ h hp).1
  intro raw fragments f h hk hparent hb hstop
  exact h.leaf (.inr hk) hparent hb (by rw [hstop, length_append]; rfl)
    ⟨fun _ => rfl, fun _ => cons_ne_nil _ _⟩

/-- A frame is opened. -/
theorem push_outline (hi : m.lexer.active = true) (ht : m.lexer.Scans) {kind : FrameKind}
    {fragment : FragmentKind} (hk : fragment = kind.fragmentKind)
    (hp : m.push kind fragment quote count = .ok m') :
    Outline m'.lexer.raw m'.lexer.fragments m'.lexer.frames := by
  rw [push_eq] at hp
  have hopened : Outline (m.opened kind fragment quote).lexer.raw
      (m.opened kind fragment quote).lexer.fragments
      (m.opened kind fragment quote).lexer.frames := h.push ht rfl hk rfl rfl
  exact delimiter_outline hopened hi (cons_ne_nil _ _) hp

end

/-- A frame is closed. -/
theorem pop_outline (h : Outline m.lexer.raw m.lexer.fragments m.lexer.frames)
    (hi : m.lexer.active = true) {frames : List Frame}
    (hf : m.lexer.frames = frame :: frames) (hp : m.pop count = .ok m') :
    Outline m'.lexer.raw m'.lexer.fragments m'.lexer.frames := by
  rw [pop_eq hf] at hp
  split at hp
  · cases hp
  · rename_i m₁ hdelimiter
    cases hp
    have hread := delimiter_outline h hi (by rw [hf]; exact cons_ne_nil _ _) hdelimiter
    have hframes : m₁.lexer.frames = frame :: frames := (delimiter_reads hdelimiter).frames.trans hf
    rw [hframes] at hread
    show Outline m₁.lexer.raw (m₁.lexer.fragments.modify frame.fragment _) m₁.lexer.frames.tail
    rw [hframes, tail_cons]
    exact hread.pop fun x => ⟨rfl, rfl, rfl, rfl⟩

/-- Making a machine ready leaves the marks of its frames. -/
theorem Readies.marks (hr : Readies d m m₁) :
    m₁.lexer.frames.map Frame.mark = m.lexer.frames.map Frame.mark := by
  induction hr with
  | refl => rfl
  | look wanted _ ih =>
    rw [peek_lexer]
    exact ih
  | clear _ _ ih => exact ih
  | @frame m₁ f hf _ ih =>
    rw [← ih]
    show (m₁.lexer.onFrame f).frames.map Frame.mark = _
    cases hframes : m₁.lexer.frames with
    | nil => rw [onFrame_nil hframes, hframes]
    | cons frame frames =>
      rw [onFrame_cons hframes, map_cons, map_cons]
      unfold Frame.mark
      rw [(hf frame).1, (hf frame).2]
  | @start m₁ hi hq _ ih =>
    rw [← ih]
    show m₁.startToken.lexer.frames.map Frame.mark = _
    rw [(startToken_lexer m₁).2.2.2.2.1]

theorem Readies.outline (hr : Readies d m m₁)
    (h : Outline m.lexer.raw m.lexer.fragments m.lexer.frames) :
    Outline m₁.lexer.raw m₁.lexer.fragments m₁.lexer.frames := by
  rw [hr.alike.raw, hr.alike.fragments]
  exact h.alike hr.marks

/-- No command substitution is open in a machine that was made ready. -/
theorem Readies.inside (hr : Readies d m m₁) (hm : InWord m) : m₁.lexer.Scans := by
  intro frame hframe hkind
  obtain ⟨other, hother, hsame, -⟩ := exists_mark hr.marks (mem_of_mem_head? hframe)
  exact hm.scans other hother (hsame.trans hkind)

/-- A machine with an open frame reads a token. -/
theorem Readies.framed (hr : Readies d m m₁) (hm : InWord m)
    {frames : List Frame} (hf : m₁.lexer.frames = frame :: frames) : m₁.lexer.active = true := by
  have hlength := hr.alike.frames
  by_cases hi : m.lexer.active = true
  · exact (hr.alike.active hi).1
  · rw [(hm.idle (by simpa using hi)).2.2, hf] at hlength
    cases hlength

theorem opens_fragment {kind : FrameKind} {fragment : FragmentKind}
    (ho : Opens d m m₁ kind fragment quote count) : fragment = kind.fragmentKind := by
  cases ho <;> rfl

/-- What a round leaves of the outline. -/
def StepOutlined : Step → Prop
  | .again m => m.lexer.active = true → m.lexer.kind = .word →
      Outline m.lexer.raw m.lexer.fragments m.lexer.frames
  | .done .more m => Outline m.lexer.raw m.lexer.fragments m.lexer.frames
  | .done .command m => Outline m.lexer.raw m.lexer.fragments m.lexer.frames
  | _ => True

theorem StepOutlined.attempt {r : Except Machine Machine}
    (h : ∀ {m}, r = .ok m → Outline m.lexer.raw m.lexer.fragments m.lexer.frames) :
    StepOutlined (.attempt r) := by
  cases r with
  | error m => trivial
  | ok m => exact fun _ _ => h rfl

/-- **A round of the scanner keeps the outline.** -/
theorem round_outlined (hm : InWord m) (h : Outline m.lexer.raw m.lexer.fragments m.lexer.frames)
    {s : Step} (hround : Round d m s) : StepOutlined s := by
  cases hround with
  | more hr => exact hr.outline h
  | fail hr l message number position => trivial
  | stuck hr hf ha => trivial
  | @skip m₁ hr hi count hskip =>
    -- Between tokens there is nothing to keep.
    cases hconsume : m₁.consume count with
    | error m' => trivial
    | ok m' =>
      intro hi'
      rw [(consume_reads hconsume).active, hi] at hi'
      cases hi'
  | comment hr hi hq rest hb =>
    intro hi'
    have hi'' := hi.symm.trans hi'
    cases hi''
  | piece hr hi kind quote count hcut =>
    exact .attempt fun hpiece => piece_outline (hr.outline h) hi (hr.inside hm) hcut hpiece
  | name hr hf value quote count hp hv =>
    obtain ⟨frame, frames, hframes, -⟩ := inFrame_iff.mp hf
    exact .attempt fun hdelimiter => delimiter_outline (hr.outline h) (hr.framed hm hframes)
      (by rw [hframes]; exact cons_ne_nil _ _) hdelimiter
  | push hr hi kind fragment quote count ho =>
    exact .attempt fun hpush => push_outline (hr.outline h) hi (hr.inside hm) (opens_fragment ho) hpush
  | @parameter m₁ hr hi rest hb quote value count hp hv =>
    unfold pushParameter
    split
    · trivial
    · rename_i m₂ hpush
      have hreads := push_reads hpush
      have hframes : m₂.lexer.frames = _ :: m₁.lexer.frames := hreads.frames
      have hopened := push_outline (hr.outline h) hi (hr.inside hm)
        (show FragmentKind.parameter = FrameKind.simple.fragmentKind from rfl) hpush
      exact .attempt fun hpop => pop_outline hopened (hreads.active.trans hi) hframes hpop
  | pop hr frame frames hf count hclose =>
    exact .attempt fun hpop => pop_outline (hr.outline h) (hr.framed hm hf) hf hpop
  | @candidate m₁ hr hi rest hb quote second third h₂ h₃ =>
    unfold pushArithmetic
    split
    · trivial
    · rename_i m₂ hpush
      intro _ _
      have hcheckpoint : Outline (m₁.checkpointArithmetic second quote).lexer.raw
        (m₁.checkpointArithmetic second quote).lexer.fragments
        (m₁.checkpointArithmetic second quote).lexer.frames := hr.outline h
      have hopened := push_outline hcheckpoint hi (hr.inside hm)
        (show FragmentKind.arithmetic = FrameKind.arithmetic.fragmentKind from rfl) hpush
      exact hopened
  | @expression m₁ hr hf c previous ha rest hb count hp =>
    obtain ⟨frame, frames, hframes, -⟩ := inFrame_iff.mp hf
    unfold popArithmetic
    split
    · trivial
    · rename_i m₂ hpop
      have hclosed := pop_outline (hr.outline h) (hr.framed hm hframes) hframes hpop
      exact fun _ _ => hclosed
  | @command m₁ hr hi rest hb quote count hp =>
    unfold dollar.commandOpening
    split
    · trivial
    · rename_i m₂ hpush
      have hopened := push_outline (hr.outline h) hi (hr.inside hm)
        (show FragmentKind.command = FrameKind.command.fragmentKind from rfl) hpush
      exact hopened
  | @giveUp m₁ hr hf =>
    unfold Machine.giveUp
    split <;> trivial
  | publish hr hi hf => trivial
  | @operator m₁ hr hi hq byte rest hb ho kind hk =>
    -- An operator is no word.
    unfold startOperator
    cases hconsume : (m₁.startToken.onLexer fun l =>
      { l with operatorText := [byte], kind := kind l }).consume 1 with
    | error m' => trivial
    | ok m' =>
      intro _ hword
      rw [(consume_reads hconsume).kind] at hword
      have hword' : kind m₁.startToken.lexer = .word := hword
      rw [hk] at hword'
      exact absurd hword' (operatorChar_kind ho _).1
  | @newline m₁ hr hi hq rest hb =>
    unfold newlineToken
    split <;> trivial
  | eof hf hi hp => trivial

/-- A round that opens a candidate adds its fragment and its frame. -/
theorem round_candidate (hround : Round d m (.again m₁))
    {frames : List Frame} (hframes : m₁.lexer.frames = frame :: frames)
    (hlength : frames.length = m.lexer.frames.length) (hkind : frame.kind = .arithmetic) :
    frame.fragment = m.lexer.fragments.length ∧ m.lexer.fragments <+: m₁.lexer.fragments ∧
      frames.map Frame.mark = m.lexer.frames.map Frame.mark := by
  -- All other rounds leave as many frames or fewer, or open a frame of another kind.
  have hshort : ∀ {m' : Machine}, Readies d m m' →
      m₁.lexer.frames.length ≤ m'.lexer.frames.length → False := by
    intro m' hr hle
    rw [hframes, length_cons, hlength, hr.alike.frames] at hle
    omega
  have hattempt : ∀ {r : Except Machine Machine}, Step.again m₁ = .attempt r → r = .ok m₁ := by
    intro r hs
    cases r <;> cases hs
    rfl
  generalize hs : Step.again m₁ = s at hround
  cases hround with
  | more hr => cases hs
  | fail hr l message number position => cases hs
  | stuck hr hf ha => cases hs
  | skip hr hi count hskip =>
    exact (hshort hr (by rw [(consume_reads (hattempt hs)).frames])).elim
  | comment hr hi hq rest hb =>
    cases hs
    exact (hshort hr (Nat.le_refl _)).elim
  | piece hr hi kind quote count hcut =>
    exact (hshort hr (by rw [(piece_reads (hattempt hs)).frames])).elim
  | name hr hf value quote count hp hv =>
    exact (hshort hr (by rw [(delimiter_reads (hattempt hs)).frames])).elim
  | @push m' hr hi kind fragment quote count ho =>
    have hopened : m₁.lexer.frames = _ :: m'.lexer.frames := (push_reads (hattempt hs)).frames
    rw [hframes] at hopened
    cases hopened
    exact absurd hkind (opens_kind ho).1
  | @parameter m' hr hi rest hb quote value count hp hv =>
    unfold pushParameter at hs
    split at hs
    · cases hs
    · rename_i m₂ hpush
      have hopened : m₂.lexer.frames = _ :: m'.lexer.frames := (push_reads hpush).frames
      have hclosed := (pop_reads hopened (hattempt hs)).2.2.2.2.1
      exact (hshort hr (by rw [hclosed])).elim
  | pop hr frame frames hf count hclose =>
    have hclosed := (pop_reads hf (hattempt hs)).2.2.2.2.1
    exact (hshort hr (by rw [hclosed, hf]; exact Nat.le_succ _)).elim
  | @candidate m' hr hi rest hb quote second third h₂ h₃ =>
    unfold pushArithmetic at hs
    split at hs
    · cases hs
    · rename_i m₂ hpush
      cases hs
      have hopened : m₂.lexer.frames = _ :: m'.lexer.frames := (push_reads hpush).frames
      have hframes' : m₂.lexer.frames = frame :: frames := hframes
      rw [push_eq] at hpush
      have hgrows := delimiter_grows hpush
      rw [hframes'] at hopened
      cases hopened
      have hfragments : m'.lexer.fragments = m.lexer.fragments := hr.alike.fragments
      refine ⟨congrArg length hfragments, ?_, hr.marks⟩
      rw [← hfragments]
      exact (prefix_append _ _).trans hgrows
  | @expression m' hr hf c previous ha rest hb count hp =>
    obtain ⟨top, below, htop, -⟩ := inFrame_iff.mp hf
    unfold popArithmetic at hs
    split at hs
    · cases hs
    · rename_i m₂ hpop
      cases hs
      have hclosed : m₂.lexer.frames = below := (pop_reads htop hpop).2.2.2.2.1
      refine (hshort hr ?_).elim
      show m₂.lexer.frames.length ≤ _
      rw [hclosed, htop]
      exact Nat.le_succ _
  | command hr hi rest hb quote count hp =>
    unfold dollar.commandOpening at hs
    split at hs <;> cases hs
  | giveUp hr hf =>
    unfold Machine.giveUp at hs
    split at hs <;> cases hs
  | publish hr hi hf => cases hs
  | @operator m' hr hi hq byte rest hb ho kind hk =>
    have hread := (consume_reads (hattempt hs)).frames
    refine (hshort hr (Nat.le_of_eq (congrArg length (hread.trans ?_)))).elim
    exact (startToken_lexer m').2.2.2.2.1
  | newline hr hi hq rest hb =>
    unfold newlineToken at hs
    split at hs <;> cases hs
  | eof hf hi hp => cases hs

/-! ### Drafts -/

/-- **A word that has a draft has an outline.** -/
theorem Draft.outline {document : Bool} {unread : Bytes} {final : Bool}
    (h : Draft d document raw fragments frames unread final) : Outline raw fragments frames := by
  have hstep : ∀ {m : Machine}, InWord m → Outline m.lexer.raw m.lexer.fragments m.lexer.frames →
      StepOutlined (m.step d) := by
    intro m hm h
    rcases step_round (fun hi => (hm.idle hi).2.2) hm.comment with ⟨hi, hk, -⟩ | ⟨-, hround⟩
    · exact absurd (hm.word hi) hk
    · exact round_outlined hm h hround
  induction h with
  | start => exact .nil
  | feed _ _ _ ih => exact ih
  | round _ _ hm hs hi hk ih =>
    have := hstep hm ih
    rw [hs] at this
    exact this hi hk
  | more _ _ hm hs _ _ ih =>
    have := hstep hm ih
    rw [hs] at this
    exact this
  | command _ _ hm hs ih =>
    have := hstep hm ih
    rw [hs] at this
    exact this
  | @replay m₀ m₁ m m' frame count _ _ hm hs hframes hlength hkind hfragments hraw hi _ _ hp ih =>
    -- What the candidate added to the word is taken back before it is opened again.
    have hround : Round d m₀ (.again m₁) := by
      rcases step_round (fun hi => (hm.idle hi).2.2) hm.comment with ⟨hi, hk, -⟩ | ⟨-, hround⟩
      · exact absurd (hm.word hi) hk
      · rwa [hs] at hround
    obtain ⟨hfragment, ⟨more, hmore⟩, hmarks⟩ := round_candidate hround hframes hlength hkind
    rw [hfragment, ← hmore, take_left] at hfragments
    have hbefore : Outline m.lexer.raw m.lexer.fragments m.lexer.frames := by
      rw [hfragments, hraw]
      exact ih.alike hmarks
    refine push_outline hbefore hi ?_
      (show FragmentKind.command = FrameKind.command.fragmentKind from rfl) hp
    intro top htop hcommand
    obtain ⟨other, hother, hsame, -⟩ := exists_mark hmarks (mem_of_mem_head? htop)
    exact hm.scans other hother (hsame.trans hcommand)
  | inside _ _ w _ _ ih => exact ih.read (cons_ne_nil _ _) w
  | close _ _ finish ih => exact ih.pop fun x => ⟨rfl, rfl, rfl, rfl⟩

/-! ### Finished words -/

/-- A fragment lies behind those before it that it is not inside of. -/
theorem Laid.behind {stack : List ℕ} (h : Laid fragments stack) {i j : ℕ} {f g : Fragment}
    (hi : fragments[i]? = some f) (hj : fragments[j]? = some g) (hij : i < j)
    (hleaf : ∀ (k : ℕ) (x : Fragment), fragments[k]? = some x → x.parent ≠ some i) : f.stop ≤ g.begin := by
  induction h with
  | nil => cases hi
  | @snoc fragments popped kept x h hp hc hb hr ih =>
    have hlt := (List.getElem?_eq_some_iff.mp hj).1
    rw [length_append, length_singleton] at hlt
    have hi' : fragments[i]? = some f := by
      rwa [getElem?_append_left (by omega)] at hi
    have hold : ∀ {k : ℕ} {y : Fragment}, fragments[k]? = some y →
        (fragments ++ [x])[k]? = some y := by
      intro k y hk
      rw [List.getElem?_append_left (List.getElem?_eq_some_iff.mp hk).1, hk]
    rcases Nat.lt_succ_iff_lt_or_eq.mp hlt with hlt | rfl
    · rw [getElem?_append_left hlt] at hj
      exact ih hi' hj fun k y hk => hleaf k y (hold hk)
    · rw [getElem?_append_right (Nat.le_refl _), Nat.sub_self] at hj
      cases hj
      refine hc i f hi' ?_
      -- What is above it on the stack would be inside it.
      intro hmem
      obtain ⟨above, below, rfl⟩ := append_of_mem hmem
      rcases eq_nil_or_concat above with rfl | ⟨above, k, rfl⟩
      · refine hleaf fragments.length g ?_ hp
        rw [getElem?_append_right (Nat.le_refl _), Nat.sub_self]
        rfl
      · obtain ⟨y, hy, hparent⟩ := @parent_eq _ _ h (popped ++ above) (i :: below) k (by simp)
        exact hleaf k y (hold hy) hparent

namespace Outline

variable (h : Outline raw fragments [])

include h

/-- The fragments of a finished word lie in its spelling. -/
theorem within (hf : f ∈ fragments) : f.begin ≤ f.stop ∧ f.stop ≤ raw.length := by
  obtain ⟨i, hi⟩ := mem_iff_getElem?.mp hf
  obtain ⟨hle, hstop, -⟩ := h.sketch.closed i f hi not_mem_nil
  exact ⟨hle, hstop⟩

/-- A continuation of a finished word is spelled as one. -/
theorem joined (hf : f ∈ fragments) (hk : f.kind = .continuation) :
    slice raw f.begin f.stop = [byteOf '\\', byteOf '\n'] := by
  obtain ⟨i, hi⟩ := mem_iff_getElem?.mp hf
  exact (h.sketch.closed i f hi not_mem_nil).2.2.1 hk

/-- A text of a finished word is not empty. -/
theorem text_lt (hf : f ∈ fragments) (hk : f.kind = .text) : f.begin < f.stop := by
  obtain ⟨i, hi⟩ := mem_iff_getElem?.mp hf
  obtain ⟨hle, -, -, hne⟩ := h.sketch.closed i f hi not_mem_nil
  rcases Nat.lt_or_eq_of_le hle with hlt | heq
  · exact hlt
  · refine absurd ?_ (hne hk)
    unfold slice
    rw [heq, Nat.sub_self, take_zero]

/-- Nothing is inside a text, an escape or a continuation. -/
theorem branch {i p : ℕ} {f g : Fragment} (hf : fragments[i]? = some f) (hp : f.parent = some p)
    (hg : fragments[p]? = some g) : isLeaf g.kind = false :=
  (h.sketch.nested i f p g hf hp hg).branch

theorem parent_lt {i p : ℕ} (hf : fragments[i]? = some f)
    (hp : f.parent = some p) : p < i := by
  obtain ⟨stack, hlaid, -⟩ := h.sketch.laid
  exact hlaid.parent_lt hf p hp

/-- The fragments behind a text, an escape or a continuation begin behind it. -/
theorem behind {i j : ℕ} {f g : Fragment} (hf : fragments[i]? = some f)
    (hg : fragments[j]? = some g) (hij : i < j) (hleaf : isLeaf f.kind = true) :
    f.stop ≤ g.begin := by
  obtain ⟨stack, hlaid, -⟩ := h.sketch.laid
  refine hlaid.behind hf hg hij ?_
  intro k x hx hp
  have hbranch := h.branch hx hp hf
  rw [hleaf] at hbranch
  cases hbranch

/-- The root fragments of a finished word are its spelling from beginning to end. -/
theorem tiled : Contiguous 0 (roots fragments) raw.length := by
  obtain ⟨stack, hlaid, -, hroot⟩ := h.sketch.laid
  rw [← hroot rfl]
  exact hlaid.tiled

end Outline

/-- **Every word that a run returns has an outline**, whatever was substituted in the run. -/
theorem Session.words_outlined {name : Bytes} {origin : Position} {document : Bool}
    {calls : List Call} {depth : ℕ} {t : Token}
    (hnext : (((Session.start name origin document).run d calls).machine.lexerNext d depth).1 =
      .token t) (hk : t.kind = .word) : Outline t.raw t.fragments [] := by
  obtain ⟨unread, final, hdraft⟩ := words_drafted hnext hk
  exact hdraft.outline

end Lexical
end CShell
