import CShell.Lexer.Forming

/-!
# How a word came to be

A word is read in rounds, with pauses for more input and for the command
substitutions in it, and a replay takes the rounds of an arithmetic candidate back.
A `Draft` is the history of the word as it stands, with nothing in it that was taken
back: one round after the other, each from a machine that holds the word as far as it
was read.  What is true of every word is proved by induction on its draft.

Other lexers and aliases are not part of a draft, so it may be made by a machine of
any surroundings.

## Main definitions

* `InWord m` — the deepest lexer of `m` can go on in a word.
* `Draft d document raw fragments frames unread final` — the history of a word.
* `Beginning` — the round that opened an arithmetic candidate.
* `Levels frames checkpoints bound` — every open candidate has its checkpoint.
* `Anchored d root m bases` — what a replay needs, also after a failure.
* `Drafted d root m bases` — every pending word of a machine has a draft.

## Main results

* `Levels.rewind` — the frames and checkpoints below a candidate.
* `Anchored.proceeds` — a helper of the scanner leaves what a replay needs.

## References

`src/lexer.c`.
-/

namespace CShell
namespace Lexical

open Machine List

/-! ### Drafts -/

/-- The deepest lexer can go on in a word, or start one. -/
structure InWord (m : Machine) : Prop where
  word : m.lexer.active = true → m.lexer.kind = .word
  idle : m.lexer.active = false →
    m.lexer.raw = [] ∧ m.lexer.fragments = [] ∧ m.lexer.frames = []
  comment : m.lexer.comment = true → m.lexer.active = false
  scans : ∀ frame ∈ m.lexer.frames, frame.kind ≠ .command
  look : LookOk m.source

/-- The history of a word: its spelling, fragments and open frames so far, and the
bytes behind it with the end of the input. -/
inductive Draft (d : Decoder) (document : Bool) :
    Bytes → List Fragment → List Frame → Bytes → Bool → Prop
  | start (unread : Bytes) (final : Bool) : Draft d document [] [] [] unread final
  | feed {raw : Bytes} {fragments : List Fragment} {frames : List Frame} {unread : Bytes}
      (h : Draft d document raw fragments frames unread false) (bytes : Bytes) (final : Bool) :
      Draft d document raw fragments frames (unread ++ bytes) final
  | round {m m' : Machine}
      (h : Draft d document m.lexer.raw m.lexer.fragments m.lexer.frames m.source.unread
        m.source.final)
      (hd : m.lexer.document = document) (hm : InWord m) (hs : m.step d = .again m')
      (hi : m'.lexer.active = true) (hk : m'.lexer.kind = .word) :
      Draft d document m'.lexer.raw m'.lexer.fragments m'.lexer.frames m'.source.unread
        m'.source.final
  -- A round that waits for more input may have looked at the next byte.
  | more {m m' : Machine}
      (h : Draft d document m.lexer.raw m.lexer.fragments m.lexer.frames m.source.unread
        m.source.final)
      (hd : m.lexer.document = document) (hm : InWord m) (hs : m.step d = .done .more m')
      (hi : m'.lexer.active = true) (hk : m'.lexer.kind = .word) :
      Draft d document m'.lexer.raw m'.lexer.fragments m'.lexer.frames m'.source.unread
        m'.source.final
  | command {m m' : Machine}
      (h : Draft d document m.lexer.raw m.lexer.fragments m.lexer.frames m.source.unread
        m.source.final)
      (hd : m.lexer.document = document) (hm : InWord m) (hs : m.step d = .done .command m') :
      Draft d document m'.lexer.raw m'.lexer.fragments m'.lexer.frames m'.source.unread
        m'.source.final
  -- The round that opened an arithmetic candidate is replaced by the opening of a
  -- command substitution.
  | replay {m₀ m₁ m m' : Machine} {frame : Frame} {count : ℕ}
      (h : Draft d document m₀.lexer.raw m₀.lexer.fragments m₀.lexer.frames m₀.source.unread
        m₀.source.final)
      (hd : m₀.lexer.document = document) (hm : InWord m₀) (hs : m₀.step d = .again m₁)
      (hframes : m₁.lexer.frames = frame :: m.lexer.frames)
      (hlength : m.lexer.frames.length = m₀.lexer.frames.length)
      (hkind : frame.kind = .arithmetic)
      (hfragments : m.lexer.fragments = m₁.lexer.fragments.take frame.fragment)
      (hraw : m.lexer.raw = m₀.lexer.raw) (hi : m.lexer.active = true) (more : Bytes)
      (hunread : m.source.unread = m₀.source.unread ++ more)
      (hp : m.push .command .command frame.quote count = .ok m') :
      Draft d document m'.lexer.raw m'.lexer.fragments m'.lexer.frames m'.source.unread
        m'.source.final
  -- The bytes of a command substitution are read by another lexer.
  | inside {raw : Bytes} {fragments : List Fragment} {frame : Frame} {frames : List Frame}
      {unread : Bytes} {final : Bool}
      (h : Draft d document raw fragments (frame :: frames) unread final)
      (hk : frame.kind = .command) (w unread' : Bytes) (final' : Bool) :
      Draft d document (raw ++ w) fragments (frame :: frames) unread' final'
  | close {raw : Bytes} {fragments : List Fragment} {frame : Frame} {frames : List Frame}
      {unread : Bytes} {final : Bool}
      (h : Draft d document raw fragments (frame :: frames) unread final)
      (hk : frame.kind = .command) (finish : Position) :
      Draft d document raw
        (fragments.modify frame.fragment fun f => { f with stop := raw.length, finish })
        frames unread final

/-- A word that was begun with an arithmetic candidate: the word before it, and what
is left to read then, perhaps with more input. -/
inductive Beginning (d : Decoder) (document : Bool) :
    Bytes → List Fragment → List Frame → Bytes → Quote → Prop
  | intro {m₀ m₁ : Machine} {frame : Frame} {frames : List Frame}
      (h : Draft d document m₀.lexer.raw m₀.lexer.fragments m₀.lexer.frames m₀.source.unread
        m₀.source.final)
      (hd : m₀.lexer.document = document) (hm : InWord m₀) (hs : m₀.step d = .again m₁)
      (hframes : m₁.lexer.frames = frame :: frames)
      (hlength : frames.length = m₀.lexer.frames.length) (hkind : frame.kind = .arithmetic)
      (more : Bytes) :
      Beginning d document m₀.lexer.raw (m₁.lexer.fragments.take frame.fragment) frames
        (m₀.source.unread ++ more) frame.quote

variable {d : Decoder} {root : Bool} {m m' : Machine} {bases : List ℕ}

theorem Beginning.feed {document : Bool} {raw : Bytes} {fragments : List Fragment} {frames : List Frame}
    {unread : Bytes} {quote : Quote} (h : Beginning d document raw fragments frames unread quote)
    (bytes : Bytes) : Beginning d document raw fragments frames (unread ++ bytes) quote := by
  cases h with
  | intro h hd hm hs hframes hlength hkind more =>
    rw [append_assoc]
    exact .intro h hd hm hs hframes hlength hkind (more ++ bytes)

/-- The command substitution that a candidate is replayed as. -/
theorem Beginning.draft {document : Bool} {quote : Quote} {count : ℕ}
    (h : Beginning d document m.lexer.raw m.lexer.fragments m.lexer.frames m.source.unread quote)
    (hi : m.lexer.active = true) (hp : m.push .command .command quote count = .ok m') :
    Draft d document m'.lexer.raw m'.lexer.fragments m'.lexer.frames m'.source.unread
      m'.source.final := by
  generalize hraw : m.lexer.raw = raw at h
  generalize hfragments : m.lexer.fragments = fragments at h
  generalize hframes : m.lexer.frames = frames at h
  generalize hunread : m.source.unread = unread at h
  cases h with
  | intro h hd hm hs hframes' hlength hkind more =>
    subst hframes
    exact .replay h hd hm hs hframes' hlength hkind hfragments hraw hi more hunread hp

/-! ### Frames and checkpoints -/

/-- Every open arithmetic candidate has its checkpoint, made before its fragment and
its frame. -/
inductive Levels : List Frame → List Checkpoint → ℕ → Prop
  | nil (bound : ℕ) : Levels [] [] bound
  | frame {f : Frame} {fs : List Frame} {cs : List Checkpoint} {bound : ℕ}
      (hk : f.kind ≠ .arithmetic) (hi : f.fragment < bound) (h : Levels fs cs f.fragment) :
      Levels (f :: fs) cs bound
  | candidate {f : Frame} {fs : List Frame} {c : Checkpoint} {cs : List Checkpoint} {bound : ℕ}
      (hk : f.kind = .arithmetic) (hi : f.fragment < bound) (hf : c.fragmentCount = f.fragment)
      (hc : c.frameCount = fs.length) (h : Levels fs cs f.fragment) :
      Levels (f :: fs) (c :: cs) bound

namespace Levels

variable {f : Frame} {fs : List Frame} {c : Checkpoint} {cs : List Checkpoint} {bound : ℕ}

theorem mono (h : Levels fs cs bound) {bound' : ℕ} (hle : bound ≤ bound') :
    Levels fs cs bound' := by
  cases h with
  | nil => exact .nil _
  | frame hk hi h => exact .frame hk (hi.trans_le hle) h
  | candidate hk hi hf hc h => exact .candidate hk (hi.trans_le hle) hf hc h

/-- A checkpoint was made before the fragments and frames there are. -/
theorem counts (h : Levels fs cs bound) :
    ∀ c ∈ cs, c.fragmentCount < bound ∧ c.frameCount < fs.length := by
  induction h with
  | nil => simp
  | frame _ hi _ ih =>
    intro c hc
    obtain ⟨hfragment, hframe⟩ := ih c hc
    exact ⟨hfragment.trans hi, hframe.trans (Nat.lt_succ_self _)⟩
  | candidate _ hi hf hc _ ih =>
    intro c hmem
    rcases mem_cons.mp hmem with rfl | hmem
    · rw [hf, hc]
      exact ⟨hi, Nat.lt_succ_self _⟩
    · obtain ⟨hfragment, hframe⟩ := ih c hmem
      exact ⟨hfragment.trans hi, hframe.trans (Nat.lt_succ_self _)⟩

/-- A change of the innermost frame that leaves its kind and its fragment. -/
theorem onFrame (h : Levels (f :: fs) cs bound) {f' : Frame} (hk : f'.kind = f.kind)
    (hf : f'.fragment = f.fragment) : Levels (f' :: fs) cs bound := by
  cases h with
  | frame hk' hi h => exact .frame (by rwa [hk]) (by rwa [hf]) (by rwa [hf])
  | candidate hk' hi hf' hc h =>
    exact .candidate (by rwa [hk]) (by rwa [hf]) (by rwa [hf]) hc (by rwa [hf])

theorem pop (h : Levels (f :: fs) cs bound) (hk : f.kind ≠ .arithmetic) :
    Levels fs cs f.fragment ∧ f.fragment < bound := by
  cases h with
  | frame _ hi h => exact ⟨h, hi⟩
  | candidate hk' => exact absurd hk' hk

theorem popCandidate (h : Levels (f :: fs) (c :: cs) bound) (hk : f.kind = .arithmetic) :
    Levels fs cs f.fragment ∧ f.fragment < bound := by
  cases h with
  | frame hk' => exact absurd hk hk'
  | candidate _ hi _ _ h => exact ⟨h, hi⟩

/-- Changes of the checkpoints that leave their counts. -/
theorem map (h : Levels fs cs bound) (g : Checkpoint → Checkpoint)
    (hg : ∀ c, (g c).fragmentCount = c.fragmentCount ∧ (g c).frameCount = c.frameCount) :
    Levels fs (cs.map g) bound := by
  induction h with
  | nil => exact .nil _
  | frame hk hi _ ih => exact .frame hk hi ih
  | candidate hk hi hf hc _ ih =>
    exact .candidate hk hi ((hg _).1.trans hf) ((hg _).2.trans hc) ih

theorem body (h : Levels fs cs bound) (begin : ℕ) :
    Levels fs (cs.modifyHead fun c => { c with bodyBegin := begin }) bound := by
  induction h with
  | nil => exact .nil _
  | frame hk hi _ ih => exact .frame hk hi ih
  | candidate hk hi hf hc h _ => exact .candidate hk hi hf hc h

/-- What is below the innermost candidate. -/
theorem rewind (h : Levels fs (c :: cs) bound) :
    Levels (fs.drop (fs.length - c.frameCount)) cs c.fragmentCount := by
  generalize hcs : c :: cs = all at h
  induction h with
  | nil => cases hcs
  | @frame f fs all bound hk hi h ih =>
    subst hcs
    have hlt := (h.counts c mem_cons_self).2
    rw [length_cons, Nat.succ_sub hlt.le, drop_succ_cons]
    exact ih rfl
  | candidate hk hi hf hc h _ =>
    cases hcs
    rw [length_cons, hc, Nat.add_sub_cancel_left, drop_one, tail_cons, hf]
    exact h

/-- Without a frame there is no checkpoint. -/
theorem nil_of_frames (h : Levels [] cs bound) : cs = [] := by
  cases h with
  | nil => rfl

end Levels

/-! ### Checkpoints and suspended lexers -/

/-- The checkpoints of a lexer, innermost first: each returns to the word before a
candidate, and to no less of the words around it than `bases`. -/
inductive Reserved (d : Decoder) (bases : List ℕ) (l : Lexer) : List Checkpoint → ℕ → Prop
  | nil (bound : ℕ) : Reserved d bases l [] bound
  | cons {c : Checkpoint} {cs : List Checkpoint} {bound : ℕ} {first : ℕ × Position}
      {rest : List (ℕ × Position)} (hc : c.captures = first :: rest) (hle : first.1 ≤ bound)
      (hb : List.Forall₂ (fun base capture => base ≤ capture.1) bases rest)
      (hcursor : c.source.cursor = 0) (hlook : c.source.look = none)
      (ho : Beginning d l.document (l.raw.take first.1) (l.fragments.take c.fragmentCount)
        (l.frames.drop (l.frames.length - c.frameCount)) c.source.unread c.quote)
      (h : Reserved d bases l cs first.1) : Reserved d bases l (c :: cs) bound

theorem Reserved.mono {l : Lexer} {cs : List Checkpoint} {bound bound' : ℕ}
    (h : Reserved d bases l cs bound) (hle : bound ≤ bound') : Reserved d bases l cs bound' := by
  cases h with
  | nil => exact .nil _
  | cons hc hle' hb hcursor hlook ho h => exact .cons hc (hle'.trans hle) hb hcursor hlook ho h

/-- Another lexer that the checkpoints return to. -/
theorem Reserved.congr {l l' : Lexer} {cs : List Checkpoint} {bound : ℕ}
    (h : Reserved d bases l cs bound) (hd : l'.document = l.document)
    (hr : ∀ i ≤ bound, l'.raw.take i = l.raw.take i)
    (hk : ∀ c ∈ cs, l'.fragments.take c.fragmentCount = l.fragments.take c.fragmentCount ∧
      l'.frames.drop (l'.frames.length - c.frameCount) =
        l.frames.drop (l.frames.length - c.frameCount)) : Reserved d bases l' cs bound := by
  induction h with
  | nil => exact .nil _
  | @cons c cs bound first rest hc hle hb hcursor hlook ho h ih =>
    obtain ⟨hfragments, hframes⟩ := hk c mem_cons_self
    refine .cons hc hle hb hcursor hlook ?_ ?_
    · rw [hd, hr _ hle, hfragments, hframes]
      exact ho
    · exact ih (fun i hi => hr i (hi.trans hle)) fun c hmem => hk c (mem_cons_of_mem _ hmem)

theorem Reserved.body {l : Lexer} {cs : List Checkpoint} {bound : ℕ}
    (h : Reserved d bases l cs bound) (begin : ℕ) :
    Reserved d bases l (cs.modifyHead fun c => { c with bodyBegin := begin }) bound := by
  cases h with
  | nil => exact .nil _
  | cons hc hle hb hcursor hlook ho h => exact .cons hc hle hb hcursor hlook ho h

/-- A lexer that has waited since it had read `base` bytes for a command substitution
to be closed. -/
structure Halted (d : Decoder) (l : Lexer) (base : ℕ) : Prop where
  active : l.active = true
  kind : l.kind = .word
  comment : l.comment = false
  command : l.command = true
  framed : l.inFrame .command = true
  single : ∀ x ∈ l.frames.tail, x.kind ≠ .command
  levels : Levels l.frames l.arithmetic l.fragments.length
  le : base ≤ l.raw.length
  draft : ∃ unread final, Draft d l.document (l.raw.take base) l.fragments l.frames unread final

/-- The suspended lexers, nearest first; only the last one, the root, may read a
document. -/
inductive Hanging (d : Decoder) (root : Bool) : List Lexer → List ℕ → Prop
  | nil : Hanging d root [] []
  | cons {l : Lexer} {ls : List Lexer} {base : ℕ} {bases : List ℕ} (hl : Halted d l base)
      (hd : l.document = (bases.isEmpty && root)) (hr : Reserved d bases l l.arithmetic base)
      (h : Hanging d root ls bases) : Hanging d root (l :: ls) (base :: bases)

/-- A spelling that goes on behind its first bytes, or is cut back to them. -/
theorem Halted.respell {l : Lexer} {base : ℕ} (h : Halted d l base) {raw : Bytes}
    (position : Position) (hle : base ≤ raw.length) (htake : raw.take base = l.raw.take base) :
    Halted d { l with raw, spellingPosition := position } base where
  active := h.active
  kind := h.kind
  comment := h.comment
  command := h.command
  framed := h.framed
  single := h.single
  levels := h.levels
  le := hle
  draft := by
    show ∃ unread final, Draft d l.document (raw.take base) l.fragments l.frames unread final
    rw [htake]
    exact h.draft

theorem Hanging.captures {ls ls' : List Lexer} (h : Hanging d root ls bases)
    (hc : List.Forall₂ Captures ls ls') : Hanging d root ls' bases := by
  induction h generalizing ls' with
  | nil =>
    cases hc
    exact .nil
  | @cons l ls base bases hl hd hr h ih =>
    cases hc with
    | @cons _ l' _ ls' hcapture hrest =>
      obtain ⟨w, position, hw, rfl⟩ := hcapture
      have htake : ∀ i ≤ base, (l.raw ++ w).take i = l.raw.take i :=
        fun i hi => take_append_of_le_length (hi.trans hl.le)
      refine .cons (hl.respell position ?_ (htake base (Nat.le_refl _))) hd
        (hr.congr rfl htake fun _ _ => ⟨rfl, rfl⟩) (ih hrest)
      rw [length_append]
      exact hl.le.trans (Nat.le_add_right _ _)

theorem Hanging.lengths {ls : List Lexer} (h : Hanging d root ls bases) :
    List.Forall₂ (fun base capture => base ≤ capture.1) bases
      (ls.map fun l => (l.raw.length, l.spellingPosition)) := by
  induction h with
  | nil => exact .nil
  | cons hl hd hr h ih => exact .cons hl.le ih

theorem Hanging.restore {ls : List Lexer} {cs : List (ℕ × Position)} (h : Hanging d root ls bases)
    (hc : List.Forall₂ (fun base capture => base ≤ capture.1) bases cs) :
    Hanging d root (ls.zipWith restoreCapture cs) bases := by
  induction h generalizing cs with
  | nil => exact .nil
  | @cons l ls base bases hl hd hr h ih =>
    cases hc with
    | @cons _ c _ cs hhead hrest =>
      have htake : ∀ i ≤ base, (l.raw.take c.1).take i = l.raw.take i := by
        intro i hi
        rw [take_take, Nat.min_eq_left (hi.trans hhead)]
      refine .cons (hl.respell c.2 ?_ (htake base (Nat.le_refl _))) hd
        (hr.congr rfl htake fun _ _ => ⟨rfl, rfl⟩) (ih hrest)
      rw [length_take]
      exact Nat.le_min.mpr ⟨hhead, hl.le⟩

/-! ### Going on in a word -/

/-- A machine whose deepest lexer went on in its token, or failed to. -/
structure Proceeds (m m' : Machine) : Prop extends Grows m m' where
  lexer : ∃ raw position fragments,
    m'.lexer = { m.lexer with raw, spellingPosition := position, fragments }

namespace Proceeds

variable {m'' : Machine}

theorem refl (m : Machine) : Proceeds m m := ⟨.refl m, _, _, _, rfl⟩

theorem trans (h : Proceeds m m') (h' : Proceeds m' m'') : Proceeds m m'' := by
  refine ⟨h.toGrows.trans h'.toGrows, ?_⟩
  obtain ⟨raw, position, fragments, heq⟩ := h.lexer
  obtain ⟨raw', position', fragments', heq'⟩ := h'.lexer
  exact ⟨raw', position', fragments', by rw [heq', heq]⟩

theorem keeps (h : Proceeds m m') {r : Except Machine Machine} (hr : Keeps (Proceeds m') r) :
    Keeps (Proceeds m) r := by
  cases r with
  | ok m'' => exact h.trans hr
  | error m'' => exact hr.imp h.trans id

theorem frames (h : Proceeds m m') : m'.lexer.frames = m.lexer.frames := by
  obtain ⟨_, _, _, heq⟩ := h.lexer
  rw [heq]

theorem active (h : Proceeds m m') : m'.lexer.active = m.lexer.active := by
  obtain ⟨_, _, _, heq⟩ := h.lexer
  rw [heq]

theorem kind (h : Proceeds m m') : m'.lexer.kind = m.lexer.kind := by
  obtain ⟨_, _, _, heq⟩ := h.lexer
  rw [heq]

theorem comment (h : Proceeds m m') : m'.lexer.comment = m.lexer.comment := by
  obtain ⟨_, _, _, heq⟩ := h.lexer
  rw [heq]

theorem command (h : Proceeds m m') : m'.lexer.command = m.lexer.command := by
  obtain ⟨_, _, _, heq⟩ := h.lexer
  rw [heq]

theorem document (h : Proceeds m m') : m'.lexer.document = m.lexer.document := by
  obtain ⟨_, _, _, heq⟩ := h.lexer
  rw [heq]

theorem source (m : Machine) {s : Source} (hd : s.data = m.source.data)
    (ha : s.aliases = m.source.aliases) : Proceeds m { m with source := s } :=
  ⟨.source m hd ha, _, _, _, rfl⟩

theorem advance (m : Machine) {byte : UInt8} (hb : byte ≠ 0) : Proceeds m (m.advance byte) := by
  refine ⟨.advance m hb, ?_⟩
  obtain ⟨raw, position, fragments, -, heq⟩ := (advance_reads m byte).lexer
  exact ⟨raw, position, fragments, heq⟩

end Proceeds

theorem consume_proceeds (m : Machine) (count : ℕ) : Keeps (Proceeds m) (m.consume count) := by
  apply consume_keeps
  · intro m₁ h
    exact h.trans (.source m₁ rfl rfl)
  · intro m₁ byte rest h _ _ h0
    exact h.trans (.advance m₁ h0)
  · intro m₁ failure h
    exact h.trans (.source m₁ rfl rfl)
  · exact .refl m

theorem piece_proceeds (hb : m.lexer.Based) (kind : FragmentKind) (quote : Quote) (count : ℕ) :
    Keeps (Proceeds m) (m.piece kind quote count) := by
  have hgrows := piece_extends hb kind quote count
  unfold piece at hgrows ⊢
  dsimp only at hgrows ⊢
  generalize (decide (kind = .text) && m.lexer.extendsText quote) = joins at hgrows ⊢
  have hlexer : ∃ fragments,
      (if joins = true then m else m.onLexer fun l => l.addFragment kind quote).lexer =
        { m.lexer with fragments } := by
    split
    · exact ⟨_, rfl⟩
    · exact ⟨_, rfl⟩
  obtain ⟨added, hadded⟩ := hlexer
  have hkeep := consume_proceeds
    (if joins = true then m else m.onLexer fun l => l.addFragment kind quote) count
  split at hgrows
  · rename_i hconsume
    rw [hconsume] at hkeep
    rcases hgrows with hgrows | hdead
    · rcases hkeep with hkeep | hdead
      · obtain ⟨raw, position, fragments, heq⟩ := hkeep.lexer
        exact .inl ⟨hgrows, raw, position, fragments, by rw [heq, hadded]⟩
      · exact .inr hdead
    · exact .inr hdead
  · rename_i m₁ hconsume
    rw [hconsume] at hkeep
    obtain ⟨raw, position, fragments, heq⟩ := hkeep.lexer
    have hfinish : ∀ index, ∃ fragments, m₁.lexer.finishFragment index =
        { m.lexer with raw, spellingPosition := position, fragments } := by
      intro index
      unfold Lexer.finishFragment
      rw [heq, hadded]
      exact ⟨_, rfl⟩
    exact ⟨hgrows, raw, position, hfinish _⟩

theorem delimiter_proceeds (hb : m.lexer.Based) (quote : Quote) (count : ℕ) :
    Keeps (Proceeds m) (m.delimiter quote count) := by
  fun_induction Machine.delimiter m quote count with
  | case1 m => exact .refl m
  | case2 m => exact consume_proceeds m 1
  | case3 m count hcont m₁ hpiece =>
    have := piece_proceeds hb .continuation quote 2
    rwa [hpiece] at this
  | case4 m count hcont m₁ hpiece ih =>
    have hgoes := piece_proceeds hb .continuation quote 2
    rw [hpiece] at hgoes
    exact Proceeds.keeps hgoes (ih (Grows.based hgoes.toGrows hb))
  | case5 m count hcont m₁ hconsume =>
    have := consume_proceeds m 1
    rwa [hconsume] at this
  | case6 m count hcont m₁ hconsume ih =>
    have hgoes := consume_proceeds m 1
    rw [hconsume] at hgoes
    exact Proceeds.keeps hgoes (ih (Grows.based hgoes.toGrows hb))

/-! ### Machines -/

/-- What a replay needs, also after a failure in the middle of a token. -/
structure Anchored (d : Decoder) (root : Bool) (m : Machine) (bases : List ℕ) : Prop where
  hanging : Hanging d root m.parents bases
  document : m.lexer.document = (bases.isEmpty && root)
  levels : Levels m.lexer.frames m.lexer.arithmetic m.lexer.fragments.length
  single : ∀ x ∈ m.lexer.frames.tail, x.kind ≠ .command
  armed : m.lexer.frames ≠ [] →
    m.lexer.active = true ∧ m.lexer.kind = .word ∧ m.lexer.comment = false
  reserved : Reserved d bases m.lexer m.lexer.arithmetic m.lexer.raw.length

/-- The deepest lexer is not in the middle of anything but its token. -/
structure Tidy (m : Machine) : Prop where
  idle : m.lexer.active = false →
    m.lexer.raw = [] ∧ m.lexer.fragments = [] ∧ m.lexer.frames = []
  operator : m.lexer.kind ≠ .word → m.lexer.frames = []
  comment : m.lexer.comment = true → m.lexer.active = false
  command : m.lexer.command = true → m.lexer.inFrame .command = true
  scans : m.lexer.command = false → m.lexer.inFrame .command = false
  look : LookOk m.source

/-- Everything that is kept of a machine but the draft of its word. -/
structure Ordered (d : Decoder) (root : Bool) (m : Machine) (bases : List ℕ) : Prop extends
    Anchored d root m bases, Tidy m

/-- The word that the deepest lexer reads has a draft. -/
def Worded (d : Decoder) (m : Machine) : Prop :=
  m.lexer.active = true → m.lexer.kind = .word →
    Draft d m.lexer.document m.lexer.raw m.lexer.fragments m.lexer.frames m.source.unread
      m.source.final

/-- Every pending word has a draft. -/
structure Drafted (d : Decoder) (root : Bool) (m : Machine) (bases : List ℕ) : Prop extends
    Ordered d root m bases where
  word : Worded d m

/-- A machine between two calls: a failure may have left a word unfinished. -/
def Rested (d : Decoder) (root : Bool) (m : Machine) (bases : List ℕ) : Prop :=
  Anchored d root m bases ∧ (m.source.failure = none → Drafted d root m bases)

/-- A helper that went on in the token, or failed to, leaves what a replay needs. -/
theorem Anchored.proceeds (h : Anchored d root m bases) (hp : Proceeds m m') :
    Anchored d root m' bases := by
  obtain ⟨w, -, hraw⟩ := hp.raw
  refine ⟨h.hanging.captures hp.parents, ?_, ?_, ?_, ?_, ?_⟩
  · rw [hp.document]
    exact h.document
  · rw [hp.frames, hp.arithmetic]
    exact h.levels.mono hp.length
  · rw [hp.frames]
    exact h.single
  · rw [hp.frames, hp.active, hp.kind, hp.comment]
    exact h.armed
  · rw [hp.arithmetic]
    refine (h.reserved.congr hp.document ?_ hp.kept).mono ?_
    · intro i hi
      rw [hraw, take_append_of_le_length hi]
    · rw [hraw, length_append]
      exact Nat.le_add_right _ _

end Lexical
end CShell
