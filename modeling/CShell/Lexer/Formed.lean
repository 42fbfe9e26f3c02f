import CShell.Lexer.Reading

/-!
# Words in their shape

Every word that a lexer of the chain is reading has its shape, at every moment
between two rounds of the scanner: the deepest lexer as far as it has read, and a
suspended one at least as far as the command substitution it waits for.  A replay
cuts both back to a checkpoint, which is why the checkpoints are pinned to the word
they were made in.

A command substitution is closed by the `)` its lexer read last.  The word around it
captured that byte unless an alias substituted inside was being read; alias text
ends with a blank, so such an alias is still on the stack then.

## Main definitions

* `Pinned`, `Waiting` — the checkpoints of a lexer, and the suspended lexers.
* `Broken d m bases` — what a replay needs; `Formed d m bases` — every pending word
  has its shape.

## Main results

* `Readies.formed` — the preparations of a round keep the shapes.
* `Broken.failAt` — a failure leaves what a replay needs.

## References

`src/lexer.c`.
-/

namespace CShell
namespace Lexical

open Machine

variable {d : Decoder} {m m' : Machine} {bases : List ℕ}

/-! ### Checkpoints and suspended lexers -/

/-- The text of every alias ends with a blank. -/
def Spaced (s : Source) : Prop := ∀ a ∈ s.aliases, s.data[a.stop - 1]? = some (byteOf ' ')

/-- The checkpoints of a lexer, innermost first: each returns to a word in its shape,
and to no less of the words around it than `bases`. -/
inductive Pinned (d : Decoder) (bases : List ℕ) (l : Lexer) : List Checkpoint → ℕ → Prop
  | nil (bound : ℕ) : Pinned d bases l [] bound
  | cons {c : Checkpoint} {cs : List Checkpoint} {bound : ℕ} {first : ℕ × Position}
      {rest : List (ℕ × Position)} (hs : Spaced c.source) (hc : c.captures = first :: rest)
      (hle : first.1 ≤ bound)
      (hb : List.Forall₂ (fun base capture => base ≤ capture.1) bases rest)
      (hshape : Shape d (l.raw.take first.1) (l.fragments.take c.fragmentCount)
        (l.frames.drop (l.frames.length - c.frameCount)))
      (hscans : ∀ frame ∈ (l.frames.drop (l.frames.length - c.frameCount)).head?,
        frame.kind ≠ .command)
      (h : Pinned d bases l cs first.1) : Pinned d bases l (c :: cs) bound

variable {cs : List Checkpoint} {frame : Frame} {frames : List Frame} {count : ℕ}

theorem Pinned.mono {l : Lexer} {bound bound' : ℕ}
    (h : Pinned d bases l cs bound) (hle : bound ≤ bound') : Pinned d bases l cs bound' := by
  cases h with
  | nil => exact .nil _
  | cons hs hc hle' hb hshape hscans h => exact .cons hs hc (hle'.trans hle) hb hshape hscans h

/-- Another lexer that the checkpoints return to. -/
theorem Pinned.congr {l l' : Lexer} {bound : ℕ}
    (h : Pinned d bases l cs bound) (hr : ∀ i ≤ bound, l'.raw.take i = l.raw.take i)
    (hk : ∀ c ∈ cs, l'.fragments.take c.fragmentCount = l.fragments.take c.fragmentCount ∧
      l'.frames.drop (l'.frames.length - c.frameCount) =
        l.frames.drop (l.frames.length - c.frameCount)) : Pinned d bases l' cs bound := by
  induction h with
  | nil => exact .nil _
  | @cons c cs bound first rest hs hc hle hb hshape hscans h ih =>
    obtain ⟨hfragments, hframes⟩ := hk c List.mem_cons_self
    refine .cons hs hc hle hb ?_ (by rw [hframes]; exact hscans) ?_
    · rw [hr _ hle, hfragments, hframes]
      exact hshape
    · exact ih (fun i hi => hr i (hi.trans hle)) fun c hmem => hk c (List.mem_cons_of_mem _ hmem)

theorem Pinned.grows {bound : ℕ} (h : Pinned d bases m.lexer m.lexer.arithmetic bound)
    (hle : bound ≤ m.lexer.raw.length) (hg : Grows m m') :
    Pinned d bases m'.lexer m'.lexer.arithmetic bound := by
  rw [hg.arithmetic]
  refine h.congr ?_ hg.kept
  intro i hi
  obtain ⟨w, -, hraw⟩ := hg.raw
  rw [hraw, List.take_append_of_le_length (hi.trans hle)]

/-- Suspended lexers, nearest first: at `base` bytes each of them began to wait. -/
inductive Waiting (d : Decoder) : List Lexer → List ℕ → Prop
  | nil : Waiting d [] []
  | cons {l : Lexer} {ls : List Lexer} {base : ℕ} {bases : List ℕ} (hi : l.active = true)
      (hc : l.command = true) (hle : base ≤ l.raw.length)
      (hs : Shape d (l.raw.take base) l.fragments l.frames) (h0 : (0 : UInt8) ∉ l.raw)
      (hp : Pinned d bases l l.arithmetic base) (h : Waiting d ls bases) :
      Waiting d (l :: ls) (base :: bases)

theorem Waiting.captures {ls ls' : List Lexer} (h : Waiting d ls bases)
    (hc : List.Forall₂ Captures ls ls') : Waiting d ls' bases := by
  induction h generalizing ls' with
  | nil =>
    cases hc
    exact .nil
  | @cons l ls base bases hi hcommand hle hs h0 hp h ih =>
    cases hc with
    | @cons _ l' _ ls' hcapture hrest =>
      obtain ⟨w, position, hw, rfl⟩ := hcapture
      have htake : ∀ i ≤ base, (l.raw ++ w).take i = l.raw.take i :=
        fun i hi => List.take_append_of_le_length (hi.trans hle)
      refine .cons hi hcommand ?_ ?_ ?_ (hp.congr htake fun _ _ => ⟨rfl, rfl⟩) (ih hrest)
      · show base ≤ (l.raw ++ w).length
        rw [List.length_append]
        omega
      · show Shape d ((l.raw ++ w).take base) l.fragments l.frames
        rw [htake base (Nat.le_refl _)]
        exact hs
      · intro hmem
        exact (List.mem_append.mp hmem).elim h0 hw

/-! ### Machines -/

/-- What a replay needs, also after a failure in the middle of a token. -/
structure Broken (d : Decoder) (m : Machine) (bases : List ℕ) : Prop where
  waiting : Waiting d m.parents bases
  pinned : Pinned d bases m.lexer m.lexer.arithmetic m.lexer.raw.length
  nonzero : (0 : UInt8) ∉ m.lexer.raw

/-- The last byte read was a closing parenthesis of the deepest lexer. -/
def AtParen (m : Machine) : Prop :=
  m.lexer.active = true ∧ m.lexer.kind = .rparen ∨
    m.lexer.active = false ∧
      ∃ last, m.lexer.last = some last ∧ last.kind = .rparen ∧ last.sequence = m.source.sequence

/-- Unless an alias substituted inside is being read, the word that waits for the
deepest lexer captured a closing parenthesis. -/
def Closable (m : Machine) (bases : List ℕ) : Prop :=
  ∀ parent rest base, m.parents = parent :: rest → bases.head? = some base →
    CleanAt m.source rest.length → ∃ v, parent.raw = v ++ [byteOf ')'] ∧ base ≤ v.length

/-- Every pending word has its shape. -/
structure Formed (d : Decoder) (m : Machine) (bases : List ℕ) : Prop extends
    Broken d m bases where
  spaced : Spaced m.source
  word : m.lexer.active = true → m.lexer.kind = .word →
    Shape d m.lexer.raw m.lexer.fragments m.lexer.frames
  scans : m.lexer.command = false → m.lexer.Scans
  operator : m.lexer.active = true → m.lexer.kind ≠ .word → m.lexer.operatorText ≠ []
  last : m.lexer.active = false → ∀ last, m.lexer.last = some last →
    last.sequence ≤ m.source.sequence
  closes : AtParen m → Closable m bases

/-- A machine between two calls: a failure may have left a word unfinished. -/
def Settled (d : Decoder) (m : Machine) (bases : List ℕ) : Prop :=
  Broken d m bases ∧ (m.source.failure = none → Formed d m bases)

theorem Spaced.grows (h : Spaced m.source) (hg : Grows m m') : Spaced m'.source := by
  intro a ha
  rw [hg.data]
  exact h a (hg.aliases a ha)

/-- A helper that failed leaves what a replay needs. -/
theorem Broken.grows (h : Broken d m bases) (hg : Grows m m') : Broken d m' bases := by
  obtain ⟨w, hw, hraw⟩ := hg.raw
  refine ⟨h.waiting.captures hg.parents, (h.pinned.grows (Nat.le_refl _) hg).mono ?_, ?_⟩
  · rw [hraw, List.length_append]
    exact Nat.le_add_right _ _
  · rw [hraw]
    intro hmem
    exact (List.mem_append.mp hmem).elim h.nonzero hw

theorem Formed.wrought (h : Formed d m bases) (hi : m.lexer.active = true)
    (hk : m.lexer.kind = .word) : Wrought d m.lexer :=
  ⟨h.word hi hk, h.nonzero⟩

/-- A pending word leaves nothing to say of the token before it. -/
theorem Broken.formed (h : Broken d m bases) (hs : Spaced m.source) (hi : m.lexer.active = true)
    (hk : m.lexer.kind = .word) (hw : Shape d m.lexer.raw m.lexer.fragments m.lexer.frames)
    (hscans : m.lexer.command = false → m.lexer.Scans) : Formed d m bases where
  toBroken := h
  spaced := hs
  word _ _ := hw
  scans := hscans
  operator _ hne := absurd hk hne
  last hi' := by
    rw [hi] at hi'
    cases hi'
  closes hp := by
    rcases hp with ⟨-, hk'⟩ | ⟨hi', -⟩
    · rw [hk] at hk'
      cases hk'
    · rw [hi] at hi'
      cases hi'

/-- The deepest lexer went on in its word. -/
theorem Formed.goes (h : Formed d m bases) (hg : Grows m m') (hi : m'.lexer.active = true)
    (hk : m'.lexer.kind = .word) (hw : Wrought d m'.lexer)
    (hs : m'.lexer.command = false → m'.lexer.Scans) : Formed d m' bases :=
  (h.toBroken.grows hg).formed (h.spaced.grows hg) hi hk hw.shape hs

/-! ### What is known of the checkpoints -/

section Checkpoints

variable {origin : Position} {J fed : Bytes} {n low limit : ℕ}

/-- A checkpoint was made before the fragments and frames there are. -/
theorem Candidates.counts {starts : List (Option ℕ)} {fragments : List Fragment} {index : ℕ}
        (h : Candidates origin J fed starts fragments low frames cs index limit) :
    ∀ c ∈ cs, c.fragmentCount < index ∧ c.frameCount < frames.length := by
  induction h with
  | nil => simp
  | frame _ hi _ ih =>
    intro c hc
    obtain ⟨hfragment, hframe⟩ := ih c hc
    exact ⟨hfragment.trans hi, hframe.trans (Nat.lt_succ_self _)⟩
  | candidate _ hi hf hc _ _ _ _ ih =>
    intro c hmem
    rcases List.mem_cons.mp hmem with rfl | hmem
    · rw [hf, hc]
      exact ⟨hi, Nat.lt_succ_self _⟩
    · obtain ⟨hfragment, hframe⟩ := ih c hmem
      exact ⟨hfragment.trans hi, hframe.trans (Nat.lt_succ_self _)⟩

/-- And not behind the innermost frame. -/
theorem Candidates.counts_top {starts : List (Option ℕ)} {fragments : List Fragment} {index : ℕ}
        (h : Candidates origin J fed starts fragments low (frame :: frames) cs index limit) :
    ∀ c ∈ cs, c.fragmentCount ≤ frame.fragment ∧ c.frameCount ≤ frames.length := by
  cases h with
  | frame _ _ h =>
    intro c hc
    exact ⟨(h.counts c hc).1.le, (h.counts c hc).2.le⟩
  | candidate _ _ hf hc _ _ _ h =>
    intro c hmem
    rcases List.mem_cons.mp hmem with rfl | hmem
    · exact ⟨Nat.le_of_eq hf, Nat.le_of_eq hc⟩
    · exact ⟨(h.counts c hmem).1.le, (h.counts c hmem).2.le⟩

section

variable (h : Scanning origin J fed m)
include h

theorem Scanning.counts :
    ∀ c ∈ m.lexer.arithmetic,
      c.fragmentCount < m.lexer.fragments.length ∧ c.frameCount < m.lexer.frames.length := by
  obtain ⟨n, htraced⟩ := h.tracks
  obtain ⟨low, -, hword, -⟩ := htraced.chain
  exact hword.candidates.counts

theorem Scanning.counts_top (hf : m.lexer.frames = frame :: frames) :
    ∀ c ∈ m.lexer.arithmetic,
      c.fragmentCount ≤ frame.fragment ∧ c.frameCount ≤ frames.length := by
  obtain ⟨n, htraced⟩ := h.tracks
  obtain ⟨low, -, hword, -⟩ := htraced.chain
  have hcand := hword.candidates
  rw [hf] at hcand
  exact hcand.counts_top

theorem Scanning.based : m.lexer.Based :=
  fun c hc => (h.counts c hc).1

theorem Scanning.checked : m.lexer.Checked :=
  fun c hc => ⟨(h.counts c hc).1.le, (h.counts c hc).2.le⟩

/-- A lexer without a token holds nothing. -/
theorem Scanning.idle (hi : m.lexer.active = false) :
    m.lexer.raw = [] ∧ m.lexer.fragments = [] ∧ m.lexer.frames = [] ∧ m.lexer.arithmetic = [] ∧
      m.lexer.aliasName = none := by
  obtain ⟨n, htraced⟩ := h.tracks
  obtain ⟨low, -, hword, -⟩ := htraced.chain
  exact hword.idle hi

/-- A lexer with an open frame is in a word. -/
theorem Scanning.framed (hf : m.lexer.frames = frame :: frames) :
    m.lexer.active = true ∧ m.lexer.kind = .word := by
  constructor
  · by_contra hi
    rw [h.frames (by simpa using hi)] at hf
    cases hf
  · by_contra hk
    rw [h.operator hk] at hf
    cases hf

end

end Checkpoints

/-! ### Making a machine ready -/

section Ready

variable {origin : Position} {J fed : Bytes}

/-- The lookahead and the failure of a source are not part of a word. -/
theorem Formed.source (h : Formed d m bases) {s : Source} (hd : s.data = m.source.data)
    (ha : s.aliases = m.source.aliases) (hs : s.sequence = m.source.sequence) :
    Formed d { m with source := s } bases where
  toBroken := ⟨h.waiting, h.pinned, h.nonzero⟩
  spaced a hmem := by
    rw [hd]
    exact h.spaced a (ha ▸ hmem)
  word := h.word
  scans := h.scans
  operator := h.operator
  last := by
    rw [hs]
    exact h.last
  closes hp := by
    have hp' : AtParen m := by
      unfold AtParen at hp ⊢
      rwa [hs] at hp
    intro parent rest base hparents hbase hclean
    refine h.closes hp' parent rest base hparents hbase ?_
    intro a hmem
    exact hclean a (by rw [ha]; exact hmem)

/-- A change of the deepest lexer that leaves its token. -/
theorem Formed.relabel (h : Formed d m bases) (f : Lexer → Lexer)
    (hw : ((f m.lexer).raw, (f m.lexer).fragments, (f m.lexer).frames, (f m.lexer).arithmetic) =
      (m.lexer.raw, m.lexer.fragments, m.lexer.frames, m.lexer.arithmetic))
    (ht : ((f m.lexer).active, (f m.lexer).kind, (f m.lexer).command, (f m.lexer).operatorText,
        (f m.lexer).last) =
      (m.lexer.active, m.lexer.kind, m.lexer.command, m.lexer.operatorText, m.lexer.last)) :
    Formed d (m.onLexer f) bases := by
  simp only [Prod.mk.injEq] at hw ht
  obtain ⟨hraw, hfragments, hframes, harithmetic⟩ := hw
  obtain ⟨hactive, hkind, hcommand, hoperator, hlast⟩ := ht
  refine ⟨⟨h.waiting, ?_, ?_⟩, h.spaced, ?_, ?_, ?_, ?_, ?_⟩
  · show Pinned d bases (f m.lexer) (f m.lexer).arithmetic (f m.lexer).raw.length
    rw [harithmetic, hraw]
    refine h.pinned.congr (fun i _ => by rw [hraw]) fun c _ => ?_
    rw [hfragments, hframes]
    exact ⟨rfl, rfl⟩
  · show (0 : UInt8) ∉ (f m.lexer).raw
    rw [hraw]
    exact h.nonzero
  · show (f m.lexer).active = true → (f m.lexer).kind = .word →
      Shape d (f m.lexer).raw (f m.lexer).fragments (f m.lexer).frames
    rw [hactive, hkind, hraw, hfragments, hframes]
    exact h.word
  · show (f m.lexer).command = false → ∀ frame ∈ (f m.lexer).frames.head?, frame.kind ≠ .command
    rw [hcommand, hframes]
    exact h.scans
  · show (f m.lexer).active = true → (f m.lexer).kind ≠ .word → (f m.lexer).operatorText ≠ []
    rw [hactive, hkind, hoperator]
    exact h.operator
  · show (f m.lexer).active = false → ∀ last, (f m.lexer).last = some last → _
    rw [hactive, hlast]
    exact h.last
  · intro hp
    refine h.closes ?_
    unfold AtParen at hp ⊢
    rwa [show (m.onLexer f).lexer = f m.lexer from rfl, hactive, hkind, hlast] at hp

theorem Formed.onFrame (h : Formed d m bases) (hs : Scanning origin J fed m) (f : Frame → Frame)
    (hf : ∀ x, (f x).kind = x.kind ∧ (f x).fragment = x.fragment) :
    Formed d (m.onLexer fun l => l.onFrame f) bases := by
  cases hframes : m.lexer.frames with
  | nil =>
    have heq : m.lexer.onFrame f = m.lexer := by
      unfold Lexer.onFrame
      rw [hframes]
    exact h.relabel _ (by rw [heq]) (by rw [heq])
  | cons frame frames =>
    obtain ⟨hi, hk⟩ := hs.framed hframes
    have heq : m.lexer.onFrame f = { m.lexer with frames := f frame :: frames } := by
      unfold Lexer.onFrame
      rw [hframes]
    have hshape := h.word hi hk
    rw [hframes] at hshape
    have hgrows : Grows m (m.onLexer fun l => l.onFrame f) := by
      refine .onLexer m _ (by rw [heq]) (by rw [heq]) (by rw [heq]) ?_
      intro c hc
      have hlt := (hs.counts c hc).2
      rw [heq]
      refine ⟨rfl, ?_⟩
      -- The frame of the checkpoint itself is not returned to.
      show (f frame :: frames).drop (frames.length + 1 - c.frameCount) = _
      rw [hframes, List.length_cons] at hlt ⊢
      rw [Nat.succ_sub (Nat.le_of_lt_succ hlt), List.drop_succ_cons, List.drop_succ_cons]
    refine h.goes hgrows ?_ ?_ ?_ ?_
    · show (m.lexer.onFrame f).active = true
      rw [heq]
      exact hi
    · show (m.lexer.onFrame f).kind = .word
      rw [heq]
      exact hk
    · refine ⟨?_, (h.toBroken.grows hgrows).nonzero⟩
      show Shape d (m.lexer.onFrame f).raw (m.lexer.onFrame f).fragments (m.lexer.onFrame f).frames
      rw [heq]
      exact hshape.relabel (hf frame).1 (hf frame).2
    · show (m.lexer.onFrame f).command = false →
        ∀ x ∈ (m.lexer.onFrame f).frames.head?, x.kind ≠ .command
      rw [heq]
      intro hc x hx
      cases hx
      rw [(hf frame).1]
      exact h.scans hc frame (by rw [hframes]; rfl)

/-- A lexer that holds nothing. -/
theorem Waiting.broken (h : Waiting d m.parents bases) (hr : m.lexer.raw = [])
    (ha : m.lexer.arithmetic = []) : Broken d m bases := by
  refine ⟨h, ?_, ?_⟩
  · rw [ha]
    exact .nil _
  · rw [hr]
    exact List.not_mem_nil

/-- A token is started. -/
theorem Formed.start (h : Formed d m bases) (hs : Scanning origin J fed m)
    (hi : m.lexer.active = false) (f : Lexer → Lexer)
    (hr : ∀ l, (f l).raw = l.raw) (ha : ∀ l, (f l).arithmetic = l.arithmetic) :
    Broken d (m.startToken.onLexer f) bases ∧ (m.startToken.onLexer f).lexer.raw = [] := by
  obtain ⟨hraw, -, -, harithmetic, -⟩ := hs.idle hi
  obtain ⟨-, -, hraw', -, -, harithmetic', -⟩ := startToken_lexer m
  have hnil : (m.startToken.onLexer f).lexer.raw = [] :=
    (hr _).trans (hraw'.trans hraw)
  have hwaiting : Waiting d (m.startToken.onLexer f).parents bases := h.waiting
  exact ⟨hwaiting.broken hnil ((ha _).trans (harithmetic'.trans harithmetic)), hnil⟩

theorem Readies.formed {m₁ : Machine} (hr : Readies d m m₁) (hs : Scanning origin J fed m)
    (h : Formed d m bases) : Formed d m₁ bases := by
  induction hr with
  | refl => exact h
  | @look m₁ wanted _ ih =>
    obtain ⟨c, heq⟩ := peek_eq (d := d) m₁ wanted
    rw [heq]
    exact ih.source rfl rfl rfl
  | clear _ _ ih => exact ih.relabel _ rfl rfl
  | frame f hf hr ih => exact ih.onFrame (hr.scanning hs) f hf
  | @start m₁ hi _ hr ih =>
    have hscan := hr.scanning hs
    obtain ⟨-, hfragments, hframes, -⟩ := hscan.idle hi
    obtain ⟨-, -, -, hfragments', hframes', -⟩ := startToken_lexer m₁
    obtain ⟨hbroken, hraw⟩ := ih.start hscan hi (fun l => { l with kind := .word })
      (fun _ => rfl) fun _ => rfl
    obtain ⟨l, hstart, hactive⟩ := startToken_eq m₁
    refine hbroken.formed ih.spaced ?_ rfl ?_ ?_
    · show m₁.startToken.lexer.active = true
      rw [hstart]
      exact hactive
    · rw [hraw]
      show Shape d [] m₁.startToken.lexer.fragments m₁.startToken.lexer.frames
      rw [hfragments', hfragments, hframes', hframes]
      exact .nil d
    · intro _ frame hframe
      have hnil : (m₁.startToken.onLexer fun l => { l with kind := .word }).lexer.frames = [] :=
        hframes'.trans hframes
      rw [hnil] at hframe
      cases hframe

end Ready

/-! ### Helpers that fail -/

theorem failAt_failure (m : Machine) (l : Lexer) (message : Bytes) (number : ℕ)
    (position : Position) : (m.failAt l message number position).source.failure.isSome = true := by
  rcases failAt_cases m l message number position with ⟨failure, heq⟩ | hdead
  · rw [heq]
    rfl
  · exact hdead.1

theorem consume_failure (h : m.consume count = .error m') :
    m'.source.failure.isSome = true := by
  induction count generalizing m with
  | zero => cases h
  | succ count ih =>
    unfold consume at h
    dsimp only at h
    split at h
    · cases h
      exact failAt_failure _ _ _ _ _
    · exact ih h

theorem piece_failure {kind : FragmentKind} {quote : Quote}
    (h : m.piece kind quote count = .error m') : m'.source.failure.isSome = true := by
  unfold piece at h
  dsimp only at h
  split at h
  · rename_i hconsume
    cases h
    exact consume_failure hconsume
  · cases h

theorem delimiter_failure {quote : Quote} (h : m.delimiter quote count = .error m') :
    m'.source.failure.isSome = true := by
  fun_induction Machine.delimiter m quote count with
  | case1 m => cases h
  | case2 m => exact consume_failure h
  | case3 m count hcont m₁ hpiece =>
    cases h
    exact piece_failure hpiece
  | case4 m count hcont m₁ hpiece ih => exact ih h
  | case5 m count hcont m₁ hconsume =>
    cases h
    exact consume_failure hconsume
  | case6 m count hcont m₁ hconsume ih => exact ih h

theorem push_failure {kind : FrameKind} {fragment : FragmentKind} {quote : Quote}
    (h : m.push kind fragment quote count = .error m') : m'.source.failure.isSome = true := by
  rw [push_eq] at h
  exact delimiter_failure h

theorem pop_failure (hf : m.lexer.frames = frame :: frames)
    (h : m.pop count = .error m') : m'.source.failure.isSome = true := by
  rw [pop_eq hf] at h
  split at h
  · rename_i hdelimiter
    cases h
    exact delimiter_failure hdelimiter
  · cases h

theorem Broken.settled (h : Broken d m bases) (hf : m.source.failure.isSome = true) :
    Settled d m bases := by
  refine ⟨h, ?_⟩
  intro hnone
  rw [hnone] at hf
  cases hf

theorem Formed.settled (h : Formed d m bases) : Settled d m bases := ⟨h.toBroken, fun _ => h⟩

/-- A failure leaves what a replay needs. -/
theorem Broken.failAt (h : Broken d m bases) (l : Lexer) (message : Bytes) (number : ℕ)
    (position : Position) : Settled d (m.failAt l message number position) bases ∨
      Dead (m.failAt l message number position) := by
  have hsome := failAt_failure m l message number position
  rcases failAt_cases m l message number position with ⟨failure, heq⟩ | hdead
  · rw [heq] at hsome ⊢
    exact .inl (Broken.settled ⟨h.waiting, h.pinned, h.nonzero⟩ hsome)
  · exact .inr hdead

end Lexical
end CShell
