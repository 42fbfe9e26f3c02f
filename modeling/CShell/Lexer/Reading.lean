import CShell.Lexer.Accepted
import CShell.Lexer.Tracking

/-!
# Reading a word in its shape

What the helpers of the scanner do to the word they read: the bytes they take from
the tape are the bytes they add to the spelling, the word keeps its shape, and what
the checkpoints of the word return to is left alone, also by a helper that fails.

## Main definitions

* `Took m m' w` — the bytes `w` were consumed.
* `Wrought d l` — the pending word of a lexer has its shape.
* `Grows m m'` — what a checkpoint may return to has been kept.

## Main results

* `piece_wrought`, `delimiter_wrought`, `push_wrought`, `pop_wrought`.
* `piece_extends`, `delimiter_extends`, `push_extends`, `pop_extends`.

## References

`src/lexer.c` (`consume`, `piece`, `delimiter`, `push`, `pop`).
-/

namespace CShell
namespace Lexical

open Machine List

variable {d : Decoder} {m m' : Machine}

/-! ### What was read -/

/-- The bytes that were consumed, and the spelling behind them. -/
structure Took (m m' : Machine) (w : Bytes) : Prop where
  unread : m.source.unread = w ++ m'.source.unread
  nonzero : (0 : UInt8) ∉ w
  raw : m'.lexer.raw = if m.lexer.active then m.lexer.raw ++ w else m.lexer.raw

theorem Took.trans {m'' : Machine} {w w' : Bytes} (h : Took m m' w) (h' : Took m' m'' w')
    (ha : m'.lexer.active = m.lexer.active) : Took m m'' (w ++ w') where
  unread := by rw [h.unread, h'.unread, append_assoc]
  nonzero hmem := (mem_append.mp hmem).elim h.nonzero h'.nonzero
  raw := by
    rw [h'.raw, h.raw, ha]
    split
    · rw [append_assoc]
    · rfl

variable {count : ℕ} {quote : Quote}

theorem consume_took (h : m.consume count = .ok m') :
    ∃ w, w.length = count ∧ Took m m' w := by
  induction count generalizing m with
  | zero =>
    cases h
    refine ⟨[], rfl, rfl, not_mem_nil, ?_⟩
    split
    · exact (append_nil _).symm
    · rfl
  | succ count ih =>
    unfold consume at h
    dsimp only at h
    split at h
    · cases h
    · rename_i hbyte
      obtain ⟨w, hlen, htook⟩ := ih h
      have hhead := head_unread (m := m.forgetLook) (unread_ne_nil hbyte)
      generalize m.forgetLook.source.data.getD m.forgetLook.source.cursor 0 = byte
        at h htook hbyte hhead
      refine ⟨byte :: w, by rw [length_cons, hlen], ?_⟩
      have hone : Took m (m.forgetLook.advance byte) [byte] := by
        refine ⟨?_, ?_, ?_⟩
        · rw [advance_unread]
          exact hhead
        · intro hmem
          exact hbyte (mem_singleton.mp hmem).symm
        · show (if m.lexer.active then m.lexer.capture byte else m.lexer).raw = _
          split <;> rfl
      refine hone.trans htook ?_
      show (if m.lexer.active then m.lexer.capture byte else m.lexer).active = _
      split <;> rfl

/-- The fragment of a piece of `count` bytes. -/
def Lexer.pieceFragment (l : Lexer) (kind : FragmentKind) (quote : Quote) (stop : ℕ)
    (finish : Position) : Fragment :=
  { kind, quote, parent := l.parentFragment, begin := l.raw.length, stop,
    start := l.spellingPosition, finish }

theorem piece_took {kind : FragmentKind}
    (h : m.piece kind quote count = .ok m') :
    ∃ w finish, w.length = count ∧ Took m m' w ∧
      m'.lexer.fragments =
        if (decide (kind = .text) && m.lexer.extendsText quote) = true then
          m.lexer.fragments.modify (m.lexer.fragments.length - 1)
            fun f => { f with stop := m'.lexer.raw.length, finish }
        else
          m.lexer.fragments ++ [m.lexer.pieceFragment kind quote m'.lexer.raw.length finish] := by
  unfold piece at h
  dsimp only at h
  generalize (decide (kind = .text) && m.lexer.extendsText quote) = joins at h ⊢
  cases joins with
  | true =>
    simp only [if_true] at h ⊢
    split at h
    · cases h
    · rename_i m₁ hconsume
      cases h
      obtain ⟨w, hlen, htook⟩ := consume_took hconsume
      obtain ⟨raw, position, heq⟩ := consume_lexer count hconsume
      have hfragments : m₁.lexer.fragments = m.lexer.fragments := by rw [heq]
      refine ⟨w, m₁.lexer.spellingPosition, hlen, ⟨htook.unread, htook.nonzero, htook.raw⟩, ?_⟩
      show m₁.lexer.fragments.modify _ _ = _
      rw [hfragments]
      rfl
  | false =>
    simp only [Bool.false_eq_true, if_false] at h ⊢
    split at h
    · cases h
    · rename_i m₁ hconsume
      cases h
      obtain ⟨w, hlen, htook⟩ := consume_took hconsume
      obtain ⟨raw, position, heq⟩ := consume_lexer count hconsume
      have hfragments : m₁.lexer.fragments = (m.lexer.addFragment kind quote).fragments := by
        rw [heq]
        rfl
      refine ⟨w, m₁.lexer.spellingPosition, hlen, ⟨htook.unread, htook.nonzero, htook.raw⟩, ?_⟩
      show m₁.lexer.fragments.modify m.lexer.fragments.length _ = _
      rw [hfragments]
      exact modify_concat _ _ _

theorem getD_unread (s : Source) (i : ℕ) : s.data.getD (s.cursor + i) 0 = s.unread.getD i 0 := by
  rw [getD_eq_getElem?_getD, getD_eq_getElem?_getD, Source.unread, getElem?_drop]

/-- The bytes of a delimiter are read one by one, or two as a continuation. -/
theorem delimiter_took {P : Bytes → List Fragment → Prop} {quote : Quote} {count : ℕ}
    (hi : m.lexer.active = true)
    (hbyte : ∀ raw fragments byte, P raw fragments → P (raw ++ [byte]) fragments)
    (hcontinuation : ∀ raw fragments f, P raw fragments → f.kind = .continuation →
      f.parent = m.lexer.parentFragment → f.begin = raw.length → f.stop = raw.length + 2 →
      P (raw ++ [byteOf '\\', byteOf '\n']) (fragments ++ [f]))
    (h : P m.lexer.raw m.lexer.fragments) (hd : m.delimiter quote count = .ok m') :
    P m'.lexer.raw m'.lexer.fragments ∧ ∃ w, w.length = count ∧ Took m m' w := by
  have hconsume : ∀ {m m' : Machine}, m.lexer.active = true → P m.lexer.raw m.lexer.fragments →
      m.consume 1 = .ok m' →
      P m'.lexer.raw m'.lexer.fragments ∧ ∃ w, w.length = 1 ∧ Took m m' w := by
    intro m m' hi h hconsume
    obtain ⟨w, hlen, htook⟩ := consume_took hconsume
    obtain ⟨raw, position, heq⟩ := consume_lexer 1 hconsume
    obtain ⟨byte, rfl⟩ := length_eq_one_iff.mp hlen
    refine ⟨?_, [byte], rfl, htook⟩
    have hfragments : m'.lexer.fragments = m.lexer.fragments := by rw [heq]
    rw [htook.raw, hfragments, if_pos hi]
    exact hbyte _ _ _ h
  fun_induction Machine.delimiter m quote count generalizing m' with
  | case1 m =>
    cases hd
    refine ⟨h, [], rfl, rfl, not_mem_nil, ?_⟩
    rw [if_pos hi, append_nil]
  | case2 m => exact hconsume hi h hd
  | case3 m count hcont m₁ hpiece => cases hd
  | case4 m count hcont m₁ hpiece ih =>
    obtain ⟨w, finish, hlen, htook, hfragments⟩ := piece_took hpiece
    simp only [decide_false, Bool.false_and, Bool.false_eq_true, if_false, reduceCtorEq] at hfragments
    have hreads := piece_reads hpiece
    have hw : w = [byteOf '\\', byteOf '\n'] := by
      obtain ⟨a, b, rfl⟩ := length_eq_two.mp hlen
      have h₁ := getD_unread m.source 0
      have h₂ := getD_unread m.source 1
      rw [htook.unread] at h₁ h₂
      rw [show a = byteOf '\\' from h₁.symm.trans hcont.1,
        show b = byteOf '\n' from h₂.symm.trans hcont.2]
    subst hw
    have hraw : m₁.lexer.raw = m.lexer.raw ++ [byteOf '\\', byteOf '\n'] := by
      rw [htook.raw, if_pos hi]
    have hp : P m₁.lexer.raw m₁.lexer.fragments := by
      rw [hfragments, hraw]
      refine hcontinuation _ _ _ h rfl rfl rfl ?_
      exact length_append
    have hparent : m₁.lexer.parentFragment = m.lexer.parentFragment := by
      unfold Lexer.parentFragment
      rw [hreads.frames]
    obtain ⟨hp', w', hlen', htook'⟩ :=
      ih (hreads.active.trans hi) (by rw [hparent]; exact hcontinuation) hp hd
    refine ⟨hp', _, ?_, htook.trans htook' hreads.active⟩
    rw [length_append, hlen', Nat.add_comm]
    rfl
  | case5 m count hcont m₁ hconsumed => cases hd
  | case6 m count hcont m₁ hconsumed ih =>
    obtain ⟨hp, w, hlen, htook⟩ := hconsume hi h hconsumed
    have hreads := consume_reads hconsumed
    have hparent : m₁.lexer.parentFragment = m.lexer.parentFragment := by
      unfold Lexer.parentFragment
      rw [hreads.frames]
    obtain ⟨hp', w', hlen', htook'⟩ :=
      ih (hreads.active.trans hi) (by rw [hparent]; exact hcontinuation) hp hd
    refine ⟨hp', _, ?_, htook.trans htook' hreads.active⟩
    rw [length_append, hlen, hlen', Nat.add_comm]

/-! ### The word being read -/

/-- The pending word of a lexer, as far as it has been read. -/
structure Wrought (d : Decoder) (l : Lexer) : Prop where
  shape : Shape d l.raw l.fragments l.frames
  nonzero : (0 : UInt8) ∉ l.raw

/-- The innermost frame of a lexer is not a command substitution. -/
def Lexer.Scans (l : Lexer) : Prop := ∀ frame ∈ l.frames.head?, frame.kind ≠ .command

theorem Took.raw_active {w : Bytes} (h : Took m m' w) (hi : m.lexer.active = true) :
    m'.lexer.raw = m.lexer.raw ++ w := by
  rw [h.raw, if_pos hi]

theorem Took.nonzero_raw {w : Bytes} (h : Took m m' w) (h0 : (0 : UInt8) ∉ m.lexer.raw) :
    (0 : UInt8) ∉ m'.lexer.raw := by
  rw [h.raw]
  split
  · intro hmem
    exact (mem_append.mp hmem).elim h0 h.nonzero
  · exact h0

theorem extendsText_last {l : Lexer} (h : l.extendsText quote = true) :
    ∃ f, l.fragments.getLast? = some f ∧ f.kind = .text ∧ f.parent = l.parentFragment := by
  unfold Lexer.extendsText at h
  split at h
  · rename_i f hf
    have := of_decide_eq_true h
    exact ⟨f, hf, this.1, this.2.2.1⟩
  · cases h

/-- A piece of the word is read. -/
theorem piece_wrought (h : Wrought d m.lexer) (hi : m.lexer.active = true) (ht : m.lexer.Scans)
    {kind : FragmentKind} (hk : isLeaf kind = true)
    (hs : ∀ f w rest, m.source.unread = w ++ rest → w.length = count → f.kind = kind →
      Sealed d f w)
    (hp : m.piece kind quote count = .ok m') : Wrought d m'.lexer := by
  obtain ⟨w, finish, hlen, htook, hfragments⟩ := piece_took hp
  have hraw := htook.raw_active hi
  refine ⟨?_, htook.nonzero_raw h.nonzero⟩
  rw [(piece_reads hp).frames, hfragments, hraw]
  split
  · rename_i hjoins
    rw [Bool.and_eq_true] at hjoins
    obtain ⟨f, hlast, hkind, hparent⟩ := extendsText_last hjoins.2
    exact h.shape.join ht hlast hkind hparent fun x => ⟨rfl, rfl, rfl, rfl⟩
  · exact h.shape.leaf ht rfl rfl rfl hk (hs _ w _ htook.unread hlen rfl)

/-- The bytes of an open fragment are read. -/
theorem delimiter_wrought (h : Wrought d m.lexer) (hi : m.lexer.active = true)
    (ht : m.lexer.Scans) (hne : m.lexer.frames ≠ [])
    (hp : m.delimiter quote count = .ok m') :
    Wrought d m'.lexer ∧ ∃ w, w.length = count ∧ Took m m' w := by
  have hframes := (delimiter_reads hp).frames
  obtain ⟨hshape, w, hlen, htook⟩ :=
    @delimiter_took m m' (fun raw fragments => Shape d raw fragments m.lexer.frames) quote count hi
      (fun raw fragments byte h => h.read hne [byte])
      (fun raw fragments f h hk hparent hb hstop =>
        h.leaf ht hparent hb (by rw [hstop, length_append]; rfl) (by rw [hk]; rfl)
          (by unfold Sealed; rw [hk]))
      h.shape hp
  refine ⟨⟨?_, htook.nonzero_raw h.nonzero⟩, w, hlen, htook⟩
  rw [hframes]
  exact hshape

/-- A frame is opened. -/
theorem push_wrought (h : Wrought d m.lexer) (hi : m.lexer.active = true) (ht : m.lexer.Scans)
    {kind : FrameKind} {fragment : FragmentKind} (hk : fragment = kind.fragmentKind)
    (ho : ∀ w rest, m.source.unread = w ++ rest → w.length = count → Openers quote w kind)
    (hp : m.push kind fragment quote count = .ok m') : Wrought d m'.lexer := by
  have hframes := (push_reads hp).frames
  rw [push_eq] at hp
  have hleaf : isLeaf fragment = false := by
    rw [hk]
    cases kind <;> rfl
  let f := m.lexer.pieceFragment fragment quote m.lexer.raw.length m.lexer.spellingPosition
  let opens := m.lexer.fragments.length :: m.lexer.frames.map Frame.fragment
  have hparent : f.parent = (m.lexer.frames.map Frame.fragment).head? := by
    rw [head?_map]
    rfl
  -- While the opening is read, only continuations are added, and they are inside it.
  let P : Bytes → List Fragment → Prop := fun raw fragments =>
    Core d raw fragments opens ∧ m.lexer.fragments ++ [f] <+: fragments ∧
      ∀ i g, fragments[i]? = some g → m.lexer.fragments.length < i →
        g.parent = some m.lexer.fragments.length
  have hself : ∀ {fragments : List Fragment}, m.lexer.fragments ++ [f] <+: fragments →
      fragments[m.lexer.fragments.length]? = some f := by
    rintro fragments ⟨more, rfl⟩
    rw [append_assoc, getElem?_append_right (Nat.le_refl _), Nat.sub_self]
    rfl
  have hstart : P m.lexer.raw (m.lexer.fragments ++ [f]) := by
    refine ⟨h.shape.core.push hparent rfl (h.shape.top ht _), prefix_refl _, ?_⟩
    intro i g hi hlt
    have := (List.getElem?_eq_some_iff.mp hi).1
    rw [length_append, length_singleton] at this
    omega
  obtain ⟨⟨hcore, hfirst, hnew⟩, w, hlen, htook⟩ :=
    @delimiter_took (m.opened kind fragment quote) m' P quote count hi
      (fun raw fragments byte h => ⟨h.1.read (cons_ne_nil _ _) [byte], h.2⟩)
      (by
        rintro raw fragments g ⟨hcore, hfirst, hnew⟩ hkind hparent hb hstop
        refine ⟨hcore.leaf hparent hb (by rw [hstop, length_append]; rfl)
          (by unfold Sealed; rw [hkind]) ?_, hfirst.trans (prefix_append _ _), ?_⟩
        · intro p x hp hx
          cases hp
          rw [hself hfirst] at hx
          cases hx
          exact ⟨hleaf, fun _ => hkind⟩
        · intro i x hi hlt
          rcases Nat.lt_or_ge i fragments.length with hless | hge
          · rw [getElem?_append_left hless] at hi
            exact hnew i x hi hlt
          · rw [getElem?_append_right hge] at hi
            cases mem_singleton.mp (mem_of_getElem? hi)
            exact hparent)
      hstart hp
  have hraw := htook.raw_active hi
  refine ⟨?_, htook.nonzero_raw h.nonzero⟩
  rw [hframes, hraw]
  rw [hraw] at hcore
  exact h.shape.push ht rfl hk rfl rfl (ho w _ htook.unread hlen) hcore hfirst hnew

/-- A frame is closed. -/
theorem pop_wrought (h : Wrought d m.lexer) (hi : m.lexer.active = true) (ht : m.lexer.Scans)
    {frame : Frame} {frames : List Frame} (hf : m.lexer.frames = frame :: frames)
    (hc : ∀ w rest, m.source.unread = w ++ rest → w.length = count → Closers w frame.kind)
    (hp : m.pop count = .ok m') : Wrought d m'.lexer := by
  rw [pop_eq hf] at hp
  split at hp
  · cases hp
  · rename_i m₁ hdelimiter
    cases hp
    have hne : m.lexer.frames ≠ [] := by
      rw [hf]
      exact cons_ne_nil _ _
    obtain ⟨hwrought, w, hlen, htook⟩ := delimiter_wrought h hi ht hne hdelimiter
    have hframes : m₁.lexer.frames = frame :: frames := (delimiter_reads hdelimiter).frames.trans hf
    have hshape := hwrought.shape
    rw [hframes] at hshape
    refine ⟨?_, hwrought.nonzero⟩
    show Shape d m₁.lexer.raw (m₁.lexer.fragments.modify frame.fragment _) m₁.lexer.frames.tail
    rw [hframes, tail_cons]
    refine hshape.pop (fun x => ⟨rfl, rfl, rfl, rfl, rfl⟩) ?_
    intro f hget hkind
    obtain ⟨f', hf', -, hopened⟩ := h.shape.opened frame (by rw [hf]; exact mem_cons_self)
    obtain ⟨more, hmore⟩ := delimiter_grows hdelimiter
    rw [← hmore, List.getElem?_append_left (List.getElem?_eq_some_iff.mp hf').1, hf'] at hget
    cases hget
    rw [htook.raw_active hi, drop_append_of_le_length (h.shape.begin_le hf')]
    exact Opened.seal hopened hkind (hc w _ htook.unread hlen)

/-! ### What a word that goes on keeps -/

/-- A suspended lexer captures bytes at the end of its spelling. -/
def Captures (l l' : Lexer) : Prop :=
  ∃ w position, (0 : UInt8) ∉ w ∧
    l' = { l with raw := l.raw ++ w, spellingPosition := position }

theorem Captures.refl (l : Lexer) : Captures l l :=
  ⟨[], l.spellingPosition, not_mem_nil, by rw [append_nil]⟩

theorem Captures.trans {l l' l'' : Lexer} (h : Captures l l') (h' : Captures l' l'') :
    Captures l l'' := by
  obtain ⟨w, position, h0, rfl⟩ := h
  obtain ⟨w', position', h0', rfl⟩ := h'
  refine ⟨w ++ w', position', ?_, by rw [append_assoc]⟩
  intro hmem
  exact (mem_append.mp hmem).elim h0 h0'

theorem Captures.capture (l : Lexer) {byte : UInt8} (hb : byte ≠ 0) :
    Captures l (l.capture byte) := by
  refine ⟨[byte], l.spellingPosition.advance byte, ?_, rfl⟩
  intro hmem
  exact hb (mem_singleton.mp hmem).symm

theorem captureParents_captures (s : Source) {byte : UInt8} (hb : byte ≠ 0) (ls : List Lexer) :
    List.Forall₂ Captures ls (captureParents s byte ls) := by
  induction ls with
  | nil => exact .nil
  | cons l ls ih =>
    refine .cons ?_ ih
    split
    · exact .capture l hb
    · exact .refl l

theorem leaveAliases_sub (as : List AliasSource) (s : Source) :
    (Source.leaveAliases as s).data = s.data ∧ (Source.leaveAliases as s).sequence = s.sequence ∧
      ∀ a ∈ (Source.leaveAliases as s).aliases, a ∈ as := by
  induction as generalizing s with
  | nil => exact ⟨rfl, rfl, fun a ha => by cases ha⟩
  | cons top as ih =>
    rw [Source.leaveAliases]
    split
    · obtain ⟨hdata, hsequence, haliases⟩ :=
        ih { s with position := top.resume, aliasEligible := s.aliasEligible || top.trailingBlank }
      exact ⟨hdata, hsequence, fun a ha => mem_cons_of_mem _ (haliases a ha)⟩
    · exact ⟨rfl, rfl, fun a ha => ha⟩

/-- A machine that went on in a word, with all that its checkpoints return to. -/
structure Grows (m m' : Machine) : Prop where
  raw : ∃ w, (0 : UInt8) ∉ w ∧ m'.lexer.raw = m.lexer.raw ++ w
  arithmetic : m'.lexer.arithmetic = m.lexer.arithmetic
  length : m.lexer.fragments.length ≤ m'.lexer.fragments.length
  kept : ∀ c ∈ m.lexer.arithmetic,
    m'.lexer.fragments.take c.fragmentCount = m.lexer.fragments.take c.fragmentCount ∧
      m'.lexer.frames.drop (m'.lexer.frames.length - c.frameCount) =
        m.lexer.frames.drop (m.lexer.frames.length - c.frameCount)
  parents : List.Forall₂ Captures m.parents m'.parents
  data : m'.source.data = m.source.data
  aliases : ∀ a ∈ m'.source.aliases, a ∈ m.source.aliases

/-- The fragments of the checkpoints have been added. -/
def Lexer.Based (l : Lexer) : Prop := ∀ c ∈ l.arithmetic, c.fragmentCount < l.fragments.length

namespace Grows

variable {m'' : Machine}

theorem refl (m : Machine) : Grows m m :=
  ⟨⟨[], not_mem_nil, (append_nil _).symm⟩, rfl, Nat.le_refl _, fun _ _ => ⟨rfl, rfl⟩, forall₂_same.mpr
    fun l _ => .refl l, rfl, fun _ ha => ha⟩

theorem trans (h : Grows m m') (h' : Grows m' m'') : Grows m m'' where
  raw := by
    obtain ⟨w, h0, hraw⟩ := h.raw
    obtain ⟨w', h0', hraw'⟩ := h'.raw
    refine ⟨w ++ w', ?_, by rw [hraw', hraw, append_assoc]⟩
    intro hmem
    exact (mem_append.mp hmem).elim h0 h0'
  arithmetic := h'.arithmetic.trans h.arithmetic
  length := h.length.trans h'.length
  kept c hc := by
    have hc' : c ∈ m'.lexer.arithmetic := by rwa [h.arithmetic]
    exact ⟨(h'.kept c hc').1.trans (h.kept c hc).1, (h'.kept c hc').2.trans (h.kept c hc).2⟩
  parents := by
    have hleft := h.parents
    have hright := h'.parents
    generalize m.parents = ls at hleft
    generalize m'.parents = ls' at hleft hright
    generalize m''.parents = ls'' at hright
    induction hleft generalizing ls'' with
    | nil =>
      cases hright
      exact .nil
    | cons hhead _ ih =>
      cases hright with
      | cons hhead' hrest' => exact .cons (hhead.trans hhead') (ih _ hrest')
  data := h'.data.trans h.data
  aliases a ha := h.aliases a (h'.aliases a ha)

theorem based (h : Grows m m') (hb : m.lexer.Based) : m'.lexer.Based := by
  intro c hc
  rw [h.arithmetic] at hc
  exact (hb c hc).trans_le h.length

/-- A change of the source that leaves the tape and the aliases. -/
theorem source (m : Machine) {s : Source} (hd : s.data = m.source.data)
    (ha : s.aliases = m.source.aliases) : Grows m { m with source := s } :=
  ⟨⟨[], not_mem_nil, (append_nil _).symm⟩, rfl, Nat.le_refl _, fun _ _ => ⟨rfl, rfl⟩, forall₂_same.mpr
    fun l _ => .refl l, hd, fun _ hmem => ha ▸ hmem⟩

/-- A change of the deepest lexer alone. -/
theorem onLexer (m : Machine) (f : Lexer → Lexer) (hr : (f m.lexer).raw = m.lexer.raw)
    (ha : (f m.lexer).arithmetic = m.lexer.arithmetic)
    (hl : m.lexer.fragments.length ≤ (f m.lexer).fragments.length)
    (hk : ∀ c ∈ m.lexer.arithmetic,
      (f m.lexer).fragments.take c.fragmentCount = m.lexer.fragments.take c.fragmentCount ∧
        (f m.lexer).frames.drop ((f m.lexer).frames.length - c.frameCount) =
          m.lexer.frames.drop (m.lexer.frames.length - c.frameCount)) :
    Grows m (m.onLexer f) :=
  ⟨⟨[], not_mem_nil, hr.trans (append_nil _).symm⟩, ha, hl, hk,
    forall₂_same.mpr fun l _ => .refl l, rfl, fun _ hmem => hmem⟩

theorem advance (m : Machine) {byte : UInt8} (hb : byte ≠ 0) : Grows m (m.advance byte) := by
  have hsub := leaveAliases_sub m.source.aliases
    { m.source with sequence := m.source.sequence + 1,
                    position := m.source.position.advance byte, cursor := m.source.cursor + 1 }
  have hlexer : (m.advance byte).lexer.raw = m.lexer.raw ++ (if m.lexer.active then [byte] else []) ∧
      (m.advance byte).lexer.arithmetic = m.lexer.arithmetic ∧
      (m.advance byte).lexer.fragments = m.lexer.fragments ∧
      (m.advance byte).lexer.frames = m.lexer.frames := by
    simp only [Machine.advance]
    split
    · exact ⟨rfl, rfl, rfl, rfl⟩
    · exact ⟨(append_nil _).symm, rfl, rfl, rfl⟩
  obtain ⟨hraw, harithmetic, hfragments, hframes⟩ := hlexer
  refine ⟨⟨_, ?_, hraw⟩, harithmetic, by rw [hfragments], ?_, captureParents_captures _ hb _, hsub.1,
    hsub.2.2⟩
  · split
    · intro hmem
      exact hb (mem_singleton.mp hmem).symm
    · exact not_mem_nil
  · intro c _
    rw [hfragments, hframes]
    exact ⟨rfl, rfl⟩

end Grows

theorem consume_extends (m : Machine) (count : ℕ) : Keeps (Grows m) (m.consume count) := by
  refine consume_keeps ?_ ?_ ?_ count (.refl m)
  · intro m₁ h
    exact h.trans (.source m₁ rfl rfl)
  · intro m₁ byte rest h _ _ h0
    exact h.trans (.advance m₁ h0)
  · intro m₁ failure h
    exact h.trans (.source m₁ rfl rfl)

/-- Where a step went, the next one goes on. -/
theorem Grows.keeps (h : Grows m m') {r : Except Machine Machine} (hr : Keeps (Grows m') r) :
    Keeps (Grows m) r := by
  cases r with
  | ok m'' => exact h.trans hr
  | error m'' => exact hr.imp h.trans id

theorem Grows.addFragment (m : Machine) (hb : ∀ c ∈ m.lexer.arithmetic,
    c.fragmentCount ≤ m.lexer.fragments.length) (kind : FragmentKind) (quote : Quote) :
    Grows m (m.onLexer fun l => l.addFragment kind quote) := by
  refine .onLexer m _ rfl rfl ?_ ?_
  · show m.lexer.fragments.length ≤ (m.lexer.fragments ++ _).length
    rw [length_append]
    exact Nat.le_add_right _ _
  · intro c hc
    exact ⟨take_append_of_le_length (hb c hc), rfl⟩

theorem Grows.finishFragment (m : Machine) {index : ℕ}
    (hb : ∀ c ∈ m.lexer.arithmetic, c.fragmentCount ≤ index) :
    Grows m (m.onLexer fun l => l.finishFragment index) := by
  refine .onLexer m _ rfl rfl ?_ ?_
  · exact Nat.le_of_eq (length_modify _ _ _).symm
  · intro c hc
    exact ⟨take_modify (hb c hc) _, rfl⟩

theorem piece_extends (hb : m.lexer.Based) (kind : FragmentKind) (quote : Quote) (count : ℕ) :
    Keeps (Grows m) (m.piece kind quote count) := by
  unfold piece
  dsimp only
  generalize (decide (kind = .text) && m.lexer.extendsText quote) = joins
  have hadd : Grows m (if joins = true then m else m.onLexer fun l => l.addFragment kind quote) := by
    split
    · exact .refl m
    · exact .addFragment m (fun c hc => (hb c hc).le) kind quote
  have hkeep := hadd.keeps (consume_extends _ count)
  split
  · rename_i hconsume
    rwa [hconsume] at hkeep
  · rename_i m₁ hconsume
    rw [hconsume] at hkeep
    refine hkeep.trans (.finishFragment m₁ ?_)
    intro c hc
    rw [hkeep.arithmetic] at hc
    have := hb c hc
    split <;> omega

theorem delimiter_extends (hb : m.lexer.Based) (quote : Quote) (count : ℕ) :
    Keeps (Grows m) (m.delimiter quote count) := by
  fun_induction Machine.delimiter m quote count with
  | case1 m => exact .refl m
  | case2 m => exact consume_extends m 1
  | case3 m count hcont m₁ hpiece =>
    have := piece_extends hb .continuation quote 2
    rwa [hpiece] at this
  | case4 m count hcont m₁ hpiece ih =>
    have hgrows := piece_extends hb .continuation quote 2
    rw [hpiece] at hgrows
    exact Grows.keeps hgrows (ih (Grows.based hgrows hb))
  | case5 m count hcont m₁ hconsume =>
    have := consume_extends m 1
    rwa [hconsume] at this
  | case6 m count hcont m₁ hconsume ih =>
    have hgrows := consume_extends m 1
    rw [hconsume] at hgrows
    exact Grows.keeps hgrows (ih (Grows.based hgrows hb))

/-- The checkpoints were made before the fragments and frames there are. -/
def Lexer.Checked (l : Lexer) : Prop :=
  ∀ c ∈ l.arithmetic, c.fragmentCount ≤ l.fragments.length ∧ c.frameCount ≤ l.frames.length

theorem Grows.opened (hb : m.lexer.Checked) (kind : FrameKind) (fragment : FragmentKind)
    (quote : Quote) :
    Grows m (m.opened kind fragment quote) ∧ (m.opened kind fragment quote).lexer.Based := by
  have hlength : (m.opened kind fragment quote).lexer.fragments.length =
      m.lexer.fragments.length + 1 := length_append
  refine ⟨.onLexer m _ rfl rfl ?_ ?_, ?_⟩
  · exact (Nat.le_succ _).trans (Nat.le_of_eq hlength.symm)
  · intro c hc
    refine ⟨take_append_of_le_length (hb c hc).1, ?_⟩
    show (_ :: m.lexer.frames).drop (m.lexer.frames.length + 1 - c.frameCount) = _
    rw [Nat.succ_sub (hb c hc).2, drop_succ_cons]
  · intro c hc
    rw [hlength]
    exact Nat.lt_succ_of_le (hb c hc).1

theorem push_extends (hb : m.lexer.Checked) (kind : FrameKind) (fragment : FragmentKind)
    (quote : Quote) (count : ℕ) : Keeps (Grows m) (m.push kind fragment quote count) := by
  obtain ⟨hgrows, hbased⟩ := Grows.opened hb kind fragment quote
  rw [push_eq]
  exact hgrows.keeps (delimiter_extends hbased quote count)

theorem pop_extends (hb : m.lexer.Based) {frame : Frame} {frames : List Frame}
    (hf : m.lexer.frames = frame :: frames)
    (hc : ∀ c ∈ m.lexer.arithmetic, c.fragmentCount ≤ frame.fragment ∧ c.frameCount ≤ frames.length)
    (count : ℕ) : Keeps (Grows m) (m.pop count) := by
  have hkeep := delimiter_extends hb frame.quote count
  rw [pop_eq hf]
  split
  · rename_i hdelimiter
    rwa [hdelimiter] at hkeep
  · rename_i m₁ hdelimiter
    rw [hdelimiter] at hkeep
    have hframes : m₁.lexer.frames = frame :: frames := (delimiter_reads hdelimiter).frames.trans hf
    refine hkeep.trans (.onLexer m₁ _ rfl rfl ?_ ?_)
    · exact Nat.le_of_eq (length_modify _ _ _).symm
    · intro c hmem
      rw [hkeep.arithmetic] at hmem
      refine ⟨take_modify (hc c hmem).1 _, ?_⟩
      show m₁.lexer.frames.tail.drop (m₁.lexer.frames.tail.length - c.frameCount) = _
      rw [hframes, tail_cons, length_cons, Nat.succ_sub (hc c hmem).2,
        drop_succ_cons]

end Lexical
end CShell
