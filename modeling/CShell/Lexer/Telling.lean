import CShell.Lib.Aligned
import CShell.Lexer.Ledger

/-!
# The ledger of a machine

Without aliases the sequence counter of a tape is the number of bytes consumed.
A lexer in the middle of a token leaves its closed command fragments as they are,
so the substitutions that its ledger holds stay enclosed.

## Main definitions

* `Goes m m'` — the deepest lexer went on in its word.
* `Told` — the ledger of a machine.

## References

`src/lexer.c`.
-/

namespace CShell
namespace Lexical

open Machine List

/-! ### Sources without aliases -/

variable (origin : Position) (J : Bytes)

/-- A source outside aliases: the sequence counts the bytes of its position. -/
def Plain (s : Source) : Prop :=
  s.aliases = [] ∧ s.position.offset = origin.offset + s.sequence

/-- A machine without aliases, now and in its checkpoints. -/
def Level (m : Machine) : Prop :=
  Plain origin m.source ∧ ∀ l ∈ m.chain, ∀ c ∈ l.arithmetic, Plain origin c.source

variable {origin J}

theorem Plain.congr {s s' : Source} (h : Plain origin s) (ha : s'.aliases = s.aliases)
    (hp : s'.position = s.position) (hq : s'.sequence = s.sequence) : Plain origin s' :=
  ⟨ha.trans h.1, by rw [hp, hq, h.2]⟩

theorem Plain.advance_eq {s : Source} (h : Plain origin s) (byte : UInt8) :
    s.advance byte = { s with
      sequence := s.sequence + 1, position := s.position.advance byte, cursor := s.cursor + 1,
      aliases := [] } := by
  unfold Source.advance
  rw [h.1]
  rfl

theorem Plain.advance {s : Source} (h : Plain origin s) (byte : UInt8) :
    Plain origin (s.advance byte) := by
  rw [h.advance_eq]
  refine ⟨rfl, ?_⟩
  have hoffset : (s.position.advance byte).offset = s.position.offset + 1 := by
    unfold Position.advance
    split <;> rfl
  show (s.position.advance byte).offset = origin.offset + (s.sequence + 1)
  rw [hoffset, h.2]
  omega

/-- Outside aliases the sequence is the number of bytes consumed. -/
theorem Traced.sequence {fed : Bytes} {n : ℕ} {m : Machine} (h : Traced origin J fed n m)
    (hp : Plain origin m.source) : m.source.sequence = n := by
  have hposition := h.tape.position
  have hoffset := hp.2
  simp only [Source.physicalPosition, hp.1, getLast?_nil, Option.map_none,
    Option.getD_none] at hposition
  rw [hposition, posAt_offset h.tape.le_input] at hoffset
  omega

/-! ### Going on in a word -/

/-- A suspended lexer only captures bytes. -/
def Suspends (l l' : Lexer) : Prop :=
  ∃ raw position, l' = { l with raw, spellingPosition := position }

theorem Suspends.refl (l : Lexer) : Suspends l l := ⟨_, _, rfl⟩

theorem Suspends.trans {l l' l'' : Lexer} (h : Suspends l l') (h' : Suspends l' l'') :
    Suspends l l'' := by
  obtain ⟨raw, position, rfl⟩ := h
  obtain ⟨raw', position', rfl⟩ := h'
  exact ⟨raw', position', rfl⟩

variable (origin) in
/-- The deepest lexer went on in its word: a fragment that is closed stays as it is. -/
structure Goes (m m' : Machine) : Prop where
  level : Level origin m → Level origin m'
  parents : List.Forall₂ Suspends m.parents m'.parents
  word : (m'.lexer.active, m'.lexer.start, m'.lexer.aliasName, m'.lexer.last, m'.lexer.command) =
    (m.lexer.active, m.lexer.start, m.lexer.aliasName, m.lexer.last, m.lexer.command)
  closed : ∀ i f, m.lexer.fragments[i]? = some f → f.kind = .command →
    (∀ frame ∈ m.lexer.frames, frame.fragment ≠ i) →
    m'.lexer.fragments[i]? = some f ∧ ∀ frame ∈ m'.lexer.frames, frame.fragment ≠ i

namespace Goes

variable {m m' m'' : Machine}

theorem forall₂_refl (ls : List Lexer) : List.Forall₂ Suspends ls ls :=
  forall₂_same.mpr fun l _ => .refl l

theorem refl (m : Machine) : Goes origin m m :=
  ⟨id, forall₂_refl _, rfl, fun _ _ hf _ hframes => ⟨hf, hframes⟩⟩

theorem trans (h : Goes origin m m') (h' : Goes origin m' m'') : Goes origin m m'' := by
  refine ⟨fun hl => h'.level (h.level hl), Aligned.trans (fun _ _ _ h h' => h.trans h') h.parents h'.parents,
    h'.word.trans h.word, ?_⟩
  intro i f hf hk hframes
  obtain ⟨hf', hframes'⟩ := h.closed i f hf hk hframes
  exact h'.closed i f hf' hk hframes'

/-- The lookahead, the failure and the eligibility are not part of a word. -/
theorem source (m : Machine) {s : Source} (ha : s.aliases = m.source.aliases)
    (hp : s.position = m.source.position) (hq : s.sequence = m.source.sequence) :
    Goes origin m { m with source := s } := by
  refine ⟨?_, forall₂_refl _, rfl, fun _ _ hf _ hframes => ⟨hf, hframes⟩⟩
  rintro ⟨hplain, hchecks⟩
  exact ⟨hplain.congr ha hp hq, hchecks⟩

/-- A change of the deepest lexer that makes no checkpoints. -/
theorem onLexer (m : Machine) (f : Lexer → Lexer)
    (hw : ((f m.lexer).active, (f m.lexer).start, (f m.lexer).aliasName, (f m.lexer).last,
        (f m.lexer).command) =
      (m.lexer.active, m.lexer.start, m.lexer.aliasName, m.lexer.last, m.lexer.command))
    (ha : ∀ c ∈ (f m.lexer).arithmetic, ∃ c' ∈ m.lexer.arithmetic, c.source = c'.source)
    (hc : ∀ i g, m.lexer.fragments[i]? = some g → g.kind = .command →
      (∀ frame ∈ m.lexer.frames, frame.fragment ≠ i) →
      (f m.lexer).fragments[i]? = some g ∧
        ∀ frame ∈ (f m.lexer).frames, frame.fragment ≠ i) :
    Goes origin m (m.onLexer f) := by
  refine ⟨?_, forall₂_refl _, hw, hc⟩
  rintro ⟨hplain, hchecks⟩
  refine ⟨hplain, ?_⟩
  intro l hl c hmem
  rcases mem_cons.mp hl with rfl | hl
  · obtain ⟨c', hmem', heq⟩ := ha c hmem
    rw [heq]
    exact hchecks _ mem_cons_self c' hmem'
  · exact hchecks l (mem_cons_of_mem _ hl) c hmem

theorem forall₂_capture (s : Source) (byte : UInt8) (ls : List Lexer) :
    List.Forall₂ Suspends ls (captureParents s byte ls) := by
  induction ls with
  | nil => exact .nil
  | cons l ls ih =>
    refine .cons ?_ ih
    split
    · exact ⟨_, _, rfl⟩
    · exact .refl l

/-- What the suspended lexers of a chain hold as checkpoints. -/
theorem checkpoints {ls ls' : List Lexer} (h : List.Forall₂ Suspends ls ls') :
    ∀ l' ∈ ls', ∃ l ∈ ls, l'.arithmetic = l.arithmetic := by
  induction h with
  | nil => simp
  | @cons l l' ls ls' hl _ ih =>
    obtain ⟨raw, position, rfl⟩ := hl
    intro x hx
    rcases mem_cons.mp hx with rfl | hx
    · exact ⟨l, mem_cons_self, rfl⟩
    · obtain ⟨y, hy, heq⟩ := ih x hx
      exact ⟨y, mem_cons_of_mem _ hy, heq⟩

theorem advance (m : Machine) (byte : UInt8) : Goes origin m (m.advance byte) := by
  have hlexer : (m.advance byte).lexer = if m.lexer.active then m.lexer.capture byte else m.lexer :=
    rfl
  refine ⟨?_, forall₂_capture _ _ _, ?_, ?_⟩
  · rintro ⟨hplain, hchecks⟩
    refine ⟨hplain.advance byte, ?_⟩
    intro l hl c hmem
    rcases mem_cons.mp hl with rfl | hl
    · refine hchecks m.lexer mem_cons_self c ?_
      rw [hlexer] at hmem
      split at hmem <;> exact hmem
    · obtain ⟨l', hl', heq⟩ := checkpoints (forall₂_capture m.source byte m.parents) l hl
      rw [heq] at hmem
      exact hchecks l' (mem_cons_of_mem _ hl') c hmem
  · rw [hlexer]
    split <;> rfl
  · intro i f hf _ hframes
    rw [hlexer]
    split <;> exact ⟨hf, hframes⟩

end Goes

/-- What a machine goes on with, it goes on with from before. -/
theorem Goes.keeps {m m' : Machine} (h : Goes origin m m') {r : Except Machine Machine}
    (hr : Keeps (Goes origin m') r) : Keeps (Goes origin m) r := by
  cases r with
  | error m'' => exact hr.imp h.trans id
  | ok m'' => exact h.trans hr

section Goes

variable {m : Machine}

variable (origin) in
theorem consume_goes (m : Machine) (count : ℕ) : Keeps (Goes origin m) (m.consume count) := by
  refine consume_keeps ?_ ?_ ?_ count (Goes.refl m)
  · intro m' h
    exact h.trans (.source _ rfl rfl rfl)
  · intro m' byte rest h _ _ _
    exact h.trans (.advance _ _)
  · intro m' failure h
    exact h.trans (.source _ rfl rfl rfl)

theorem Goes.addFragment (m : Machine) (kind : FragmentKind) (quote : Quote) :
    Goes origin m (m.onLexer fun l => l.addFragment kind quote) := by
  refine .onLexer _ _ rfl (fun c hc => ⟨c, hc, rfl⟩) ?_
  intro i f hf _ hframes
  refine ⟨?_, hframes⟩
  obtain ⟨hlt, -⟩ := List.getElem?_eq_some_iff.mp hf
  show (m.lexer.fragments ++ _)[i]? = some f
  rw [getElem?_append_left hlt, hf]

/-- A fragment is ended that is no command, or still has its frame. -/
theorem Goes.finishFragment (m : Machine) (index : ℕ)
    (h : ∀ f, m.lexer.fragments[index]? = some f → f.kind = .command →
      ∃ frame ∈ m.lexer.frames, frame.fragment = index) :
    Goes origin m (m.onLexer fun l => l.finishFragment index) := by
  refine .onLexer _ _ rfl (fun c hc => ⟨c, hc, rfl⟩) ?_
  intro i f hf hk hframes
  refine ⟨?_, hframes⟩
  have hne : ¬index = i := by
    rintro rfl
    obtain ⟨frame, hmem, heq⟩ := h f hf hk
    exact hframes frame hmem heq
  show (m.lexer.fragments.modify index _)[i]? = some f
  rw [getElem?_modify, hf]
  simp [hne]

/-- The fragment a text piece goes on with is a text. -/
theorem extendsText_kind {l : Lexer} {quote : Quote} (h : l.extendsText quote = true) :
    ∀ f, l.fragments[l.fragments.length - 1]? = some f → f.kind = .text := by
  intro f hf
  unfold Lexer.extendsText at h
  rw [getLast?_eq_getElem?, hf] at h
  simp only [decide_eq_true_eq] at h
  exact h.1

variable (origin) in
/-- The bytes of a fragment, behind its beginning. -/
theorem pieceBytes_goes {m m₁ : Machine} {index : ℕ} (hgoes : Goes origin m m₁)
    (hindex : ∀ f, m₁.lexer.fragments[index]? = some f → f.kind ≠ .command) (count : ℕ) :
    Keeps (Goes origin m) (match m₁.consume count with
      | .error m => .error m
      | .ok m => .ok (m.onLexer fun l => l.finishFragment index)) := by
  have hkeep := consume_goes origin m₁ count
  split
  · rename_i hconsume
    rw [hconsume] at hkeep
    exact hkeep.imp hgoes.trans id
  · rename_i m₂ hconsume
    rw [hconsume] at hkeep
    refine (hgoes.trans hkeep).trans (.finishFragment _ _ ?_)
    obtain ⟨raw, position, heq⟩ := consume_lexer count hconsume
    rw [heq]
    intro f hf hcommand
    exact absurd hcommand (hindex f hf)

variable (origin) in
theorem piece_goes (m : Machine) {kind : FragmentKind} (hk : kind ≠ .command) (quote : Quote)
    (count : ℕ) : Keeps (Goes origin m) (m.piece kind quote count) := by
  unfold piece
  dsimp only
  cases hjoin : (decide (kind = .text) && m.lexer.extendsText quote) with
  | true =>
    rw [Bool.and_eq_true] at hjoin
    refine pieceBytes_goes origin (.refl m) ?_ count
    intro f hf
    rw [extendsText_kind hjoin.2 f hf]
    decide
  | false =>
    refine pieceBytes_goes origin (.addFragment _ _ _) ?_ count
    intro f hf
    have hf' : (m.lexer.fragments ++ [_])[m.lexer.fragments.length]? = some f := hf
    rw [getElem?_append_right (Nat.le_refl _), Nat.sub_self] at hf'
    cases hf'
    exact hk

variable (origin) in
theorem delimiter_goes (m : Machine) (quote : Quote) (count : ℕ) :
    Keeps (Goes origin m) (m.delimiter quote count) := by
  have hcont : FragmentKind.continuation ≠ .command := by decide
  fun_induction Machine.delimiter m quote count with
  | case1 m => exact .refl m
  | case2 m => exact consume_goes origin m 1
  | case3 m count _ m₁ hpiece =>
    have := piece_goes origin m hcont quote 2
    rwa [hpiece] at this
  | case4 m count _ m₁ hpiece ih =>
    have := piece_goes origin m hcont quote 2
    rw [hpiece] at this
    exact this.keeps ih
  | case5 m count _ m₁ hconsume =>
    have := consume_goes origin m 1
    rwa [hconsume] at this
  | case6 m count _ m₁ hconsume ih =>
    have := consume_goes origin m 1
    rw [hconsume] at this
    exact this.keeps ih

theorem Goes.opened (m : Machine) (kind : FrameKind) (fragment : FragmentKind) (quote : Quote) :
    Goes origin m (m.opened kind fragment quote) := by
  refine .onLexer _ _ rfl (fun c hc => ⟨c, hc, rfl⟩) ?_
  intro i f hf hk hframes
  obtain ⟨hlt, -⟩ := List.getElem?_eq_some_iff.mp hf
  refine ⟨?_, ?_⟩
  · show (m.lexer.fragments ++ _)[i]? = some f
    rw [getElem?_append_left hlt, hf]
  · intro frame hmem
    rcases mem_cons.mp hmem with rfl | hmem
    · exact Nat.ne_of_gt hlt
    · exact hframes frame hmem

variable (origin) in
theorem push_goes (m : Machine) (kind : FrameKind) (fragment : FragmentKind) (quote : Quote)
    (count : ℕ) : Keeps (Goes origin m) (m.push kind fragment quote count) := by
  rw [push_eq]
  exact (Goes.opened m kind fragment quote).keeps (delimiter_goes origin _ _ _)

/-- The frame on top is popped and its fragment ended. -/
theorem Goes.close (m : Machine) {frame : Frame} {frames : List Frame}
    (hf : m.lexer.frames = frame :: frames) :
    Goes origin m (m.onLexer fun l =>
      { l.finishFragment frame.fragment with frames := l.frames.tail }) := by
  have hfinish : Goes origin m (m.onLexer fun l => l.finishFragment frame.fragment) :=
    .finishFragment m frame.fragment
      fun f _ _ => ⟨frame, by rw [hf]; exact mem_cons_self, rfl⟩
  refine .onLexer _ _ rfl (fun c hc => ⟨c, hc, rfl⟩) ?_
  intro i f hi hk hframes
  refine ⟨(hfinish.closed i f hi hk hframes).1, ?_⟩
  intro frame' hmem
  refine hframes frame' ?_
  have hmem' : frame' ∈ m.lexer.frames.tail := hmem
  exact mem_of_mem_tail hmem'

variable (origin) in
theorem pop_goes (m : Machine) {frame : Frame} {frames : List Frame}
    (hf : m.lexer.frames = frame :: frames) (count : ℕ) :
    Keeps (Goes origin m) (m.pop count) := by
  have hkeep := delimiter_goes origin m frame.quote count
  rw [pop_eq hf]
  split
  · rename_i hdelimiter
    rwa [hdelimiter] at hkeep
  · rename_i m₁ hdelimiter
    rw [hdelimiter] at hkeep
    exact hkeep.trans (.close m₁ ((delimiter_reads hdelimiter).frames.trans hf))

end Goes

/-! ### The ledger of a machine -/

/-- What lies between the last entry and the cursor, seen from the comment flag and
the bytes ahead. -/
def Between (w : Bytes) (comment : Bool) (unread : Bytes) : Prop :=
  if comment then
    ∃ separators text, w = separators ++ text ∧ Separators separators ∧ byteOf '\n' ∉ text ∧
      (text = [] ∧ unread.head? = some (byteOf '#') ∨ text.head? = some (byteOf '#'))
  else Separators w ∨ Gap w ∧ unread.head? = some (byteOf '\n')

theorem Separators.gap {w : Bytes} (h : Separators w) : Gap w :=
  ⟨w, [], (append_nil w).symm, h, .inl rfl⟩

theorem Between.gap {w unread : Bytes} (h : Between w false unread) : Gap w := by
  rcases h with h | ⟨h, -⟩
  · exact h.gap
  · exact h

variable (origin J)

/-- The entries of a lexer end at `e`, with the token it published last. -/
structure Tale (e : ℕ) (l : Lexer) (r : Record) : Prop where
  items : Tiles origin J r.born e r.items
  last : ∀ last, l.last = some last → last.sequence = e ∧
    ∃ t inner, r.items.getLast? = some (.token t inner) ∧ t.kind = last.kind

/-- A substitution of the pending word. -/
def Pends (a : ℕ) (l : Lexer) (s : Substitution) : Prop :=
  Encloses a l.fragments s ∧ Tiles origin J s.born s.stop s.items ∧
    ∀ frame ∈ l.frames, frame.fragment ≠ s.fragment

/-- A lexer in the middle of a token. -/
def Telling (l : Lexer) (r : Record) : Prop :=
  ∃ e a, startOf origin l = some a ∧ Tale origin J e l r ∧ e ≤ a ∧ Gap (J.extract e a) ∧
    ∀ s ∈ r.pending, Pends origin J a l s

/-- A lexer between two tokens. -/
def Silent (source : Source) (l : Lexer) (r : Record) : Prop :=
  ∃ e, Tale origin J e l r ∧ e ≤ source.sequence ∧ r.pending = [] ∧
    (source.failure = none → Between (J.extract e source.sequence) l.comment source.unread)

/-- The fragment on top of the frames is a command. -/
def Opening (l : Lexer) (f : Fragment) : Prop :=
  ∃ frame rest, l.frames = frame :: rest ∧ l.fragments[frame.fragment]? = some f ∧
    f.kind = .command

/-- The ledgers of the suspended lexers; the substitution they wait for began at
`born`. -/
def Behind (born : ℕ) : List Lexer → List Record → Prop
  | [], [] => True
  | l :: ls, r :: rs =>
    (l.active = true ∧ l.command = true ∧ Telling origin J l r ∧
      ∃ f, Opening l f ∧ ∀ a, startOf origin l = some a → a + f.begin ≤ born) ∧
      Behind r.born ls rs
  | _, _ => False

/-- The ledger of a machine. -/
structure Told (m : Machine) (r : Record) (rs : List Record) : Prop where
  level : Level origin m
  active : m.lexer.active = true → Telling origin J m.lexer r
  idle : m.lexer.active = false → Silent origin J m.source m.lexer r
  opening : m.lexer.command = true → ∃ f, Opening m.lexer f
  behind : Behind origin J r.born m.parents rs

variable {origin J}

section Told

variable {m m' : Machine} {r : Record} {rs : List Record}

theorem startOf_congr {l l' : Lexer} (ha : l'.active = l.active) (hn : l'.aliasName = l.aliasName)
    (hs : l'.start = l.start) : startOf origin l' = startOf origin l := by
  unfold startOf
  rw [ha, hn, hs]

theorem Telling.goes (h : Telling origin J m.lexer r) (hg : Goes origin m m') :
    Telling origin J m'.lexer r := by
  obtain ⟨e, a, hstart, htale, hle, hgap, hpending⟩ := h
  have hword := hg.word
  simp only [Prod.mk.injEq] at hword
  obtain ⟨hactive, hposition, halias, hlast, -⟩ := hword
  refine ⟨e, a, ?_, ⟨htale.items, ?_⟩, hle, hgap, ?_⟩
  · rw [startOf_congr hactive halias hposition, hstart]
  · rw [hlast]
    exact htale.last
  · intro s hs
    obtain ⟨⟨⟨f, hf, hk, hbegin, hstop⟩, hlast⟩, htiles, hframes⟩ := hpending s hs
    obtain ⟨hf', hframes'⟩ := hg.closed s.fragment f hf hk hframes
    exact ⟨⟨⟨f, hf', hk, hbegin, hstop⟩, hlast⟩, htiles, hframes'⟩

theorem Behind.suspends {born : ℕ} {ls ls' : List Lexer} {rs : List Record}
    (h : Behind origin J born ls rs) (hs : List.Forall₂ Suspends ls ls') :
    Behind origin J born ls' rs := by
  induction hs generalizing born rs with
  | nil => exact h
  | @cons l l' ls ls' hl _ ih =>
    cases rs with
    | nil => exact h.elim
    | cons r rs =>
      obtain ⟨raw, position, rfl⟩ := hl
      obtain ⟨⟨hactive, hcommand, ⟨e, a, hstart, htale, htelling⟩, hopening⟩, hrest⟩ := h
      exact ⟨⟨hactive, hcommand, ⟨e, a, hstart, ⟨htale.items, htale.last⟩, htelling⟩, hopening⟩,
        ih hrest⟩

/-- A machine that goes on in its word keeps its ledger. -/
theorem Told.goes (h : Told origin J m r rs) (hi : m.lexer.active = true)
    (hc : m.lexer.command = false) (hg : Goes origin m m') : Told origin J m' r rs := by
  have hword := hg.word
  simp only [Prod.mk.injEq] at hword
  obtain ⟨hactive, -, -, -, hcommand⟩ := hword
  refine ⟨hg.level h.level, fun _ => (h.active hi).goes hg, ?_, ?_, h.behind.suspends hg.parents⟩
  · intro hi'
    rw [hactive, hi] at hi'
    cases hi'
  · intro hc'
    rw [hcommand, hc] at hc'
    cases hc'

theorem Told.keeps (h : Told origin J m r rs) (hi : m.lexer.active = true)
    (hc : m.lexer.command = false) {result : Except Machine Machine}
    (hr : Keeps (Goes origin m) result) : Keeps (fun m' => Told origin J m' r rs) result := by
  cases result with
  | error m' => exact hr.imp (h.goes hi hc) id
  | ok m' => exact h.goes hi hc hr

end Told

end Lexical
end CShell
