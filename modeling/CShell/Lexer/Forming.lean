import CShell.Lexer.Formed

/-!
# The scanner keeps the shapes

One lemma for each end of a round, a replay, and the calls of the interface.  A word
that is published has no open frame, so it is finished.

## Main results

* `round_formed` — a round of the scanner keeps the shapes.
* `restore_formed` — so does a replay, on any lexer of the chain.
* `lexerNext_formed` — and `csh_lexer_next`, whose words are finished.

## References

`src/lexer.c`.
-/

namespace CShell
namespace Lexical

open Machine List

variable {d : Decoder} {m m' : Machine} {bases : List ℕ}

/-! ### The ends of a round -/

variable (d bases) in
/-- What a round leaves. -/
def StepFormed : Step → Prop
  | .again m => Formed d m bases
  | .done .error m => (∃ bases, Settled d m bases) ∨ Dead m
  | .done (.token t) m =>
    Formed d m bases ∧ (t.kind = .word → Shape d t.raw t.fragments [] ∧ (0 : UInt8) ∉ t.raw)
  | .done .replay m => ∃ bases, Formed d m bases
  | .done _ m => Formed d m bases

/-- A helper that failed. -/
theorem Formed.failed (h : Formed d m bases) {r : Except Machine Machine}
    (hg : Keeps (Grows m) r) (hr : r = .error m') (hf : m'.source.failure.isSome = true) :
    (∃ bases, Settled d m' bases) ∨ Dead m' := by
  rw [hr] at hg
  exact hg.imp (fun hgrows => ⟨bases, (h.toBroken.grows hgrows).settled hf⟩) id

theorem Formed.attempt (h : Formed d m bases) {r : Except Machine Machine}
    (hg : Keeps (Grows m) r)
    (hf : ∀ {m'}, r = .error m' → m'.source.failure.isSome = true)
    (hok : ∀ {m'}, r = .ok m' → Grows m m' → Formed d m' bases) :
    StepFormed d bases (.attempt r) := by
  cases r with
  | error m' => exact h.failed hg rfl (hf rfl)
  | ok m' => exact hok rfl hg

section Rounds

variable {origin : Position} {J fed : Bytes}

variable {count : ℕ} {quote : Quote} {previous : List Checkpoint}

theorem piece_formed (hd : d.Prompt) (h : Formed d m bases) (hs : Scanning origin J fed m)
    (hi : m.lexer.active = true) (hw : m.lexer.kind = .word) {kind : FragmentKind}
    (quote : Quote) (hc : Cuts d m kind count) :
    StepFormed d bases (.attempt (m.piece kind quote count)) := by
  have hleaf : isLeaf kind = true := by cases hc <;> rfl
  have hscans := h.scans hs.command
  have hsealed : ∀ f w rest, m.source.unread = w ++ rest → w.length = count → f.kind = kind →
      Sealed d f w := by
    intro f w rest hunread hlen hkind
    unfold Sealed
    rw [hkind]
    cases hc with
    | text hw => trivial
    | escape rest' hb hpos =>
      rw [hb] at hunread
      cases w with
      | nil =>
        rw [length_nil] at hlen
        omega
      | cons byte c =>
        rw [cons_append] at hunread
        obtain ⟨hbyte, hrest⟩ := cons.inj hunread
        subst hrest
        rw [length_cons, Nat.add_comm] at hlen
        have hlen' : c.length = d.characterLength (c ++ rest) m.source.final := by omega
        refine ⟨c, by rw [hbyte], by omega, ?_⟩
        have hprompt := hd.characterLength_take hpos
        rwa [← hlen', take_left] at hprompt
    | continuation rest' hb =>
      rw [hb] at hunread
      obtain ⟨a, b, rfl⟩ := length_eq_two.mp hlen
      cases hunread
      rfl
  refine h.attempt (piece_extends hs.based kind quote count) piece_failure ?_
  intro m' hpiece hgrows
  have hreads := piece_reads hpiece
  refine h.goes hgrows (hreads.active.trans hi) (hreads.kind.trans hw)
    (piece_wrought (h.wrought hi hw) hi hscans hleaf hsealed hpiece) ?_
  intro _
  unfold Lexer.Scans
  rw [hreads.frames]
  exact hscans

theorem name_formed (h : Formed d m bases) (hs : Scanning origin J fed m)
    (hf : m.lexer.inFrame .simple = true) (quote : Quote) (count : ℕ) :
    StepFormed d bases (.attempt (m.delimiter quote count)) := by
  obtain ⟨frame, frames, hframes, -⟩ := inFrame_iff.mp hf
  obtain ⟨hi, hw⟩ := hs.framed hframes
  have hscans := h.scans hs.command
  have hne : m.lexer.frames ≠ [] := by
    rw [hframes]
    exact cons_ne_nil _ _
  refine h.attempt (delimiter_extends hs.based quote count) delimiter_failure ?_
  intro m' hdelimiter hgrows
  have hreads := delimiter_reads hdelimiter
  refine h.goes hgrows (hreads.active.trans hi) (hreads.kind.trans hw)
    (delimiter_wrought (h.wrought hi hw) hi hscans hne hdelimiter).1 ?_
  intro _
  unfold Lexer.Scans
  rw [hreads.frames]
  exact hscans

/-- A frame of another kind than a command substitution is opened. -/
theorem push_formed (h : Formed d m bases) (hs : Scanning origin J fed m)
    (hi : m.lexer.active = true) (hw : m.lexer.kind = .word) {kind : FrameKind}
    (hk : kind ≠ .command) {fragment : FragmentKind} (hfragment : fragment = kind.fragmentKind)
        (ho : ∀ w rest, m.source.unread = w ++ rest → w.length = count → Openers quote w kind)
    (hp : m.push kind fragment quote count = .ok m') (hgrows : Grows m m') :
    Formed d m' bases := by
  have hreads := push_reads hp
  refine h.goes hgrows (hreads.active.trans hi) (hreads.kind.trans hw)
    (push_wrought (h.wrought hi hw) hi (h.scans hs.command) hfragment ho hp) ?_
  intro _ frame hframe
  rw [hreads.frames] at hframe
  cases hframe
  exact hk

theorem pop_formed (h : Formed d m bases) (hs : Scanning origin J fed m) {frame : Frame}
    {frames : List Frame} (hf : m.lexer.frames = frame :: frames)
    (hc : ∀ w rest, m.source.unread = w ++ rest → w.length = count → Closers w frame.kind)
    (hp : m.pop count = .ok m') (hgrows : Grows m m') : Formed d m' bases := by
  obtain ⟨hi, hw⟩ := hs.framed hf
  obtain ⟨-, -, hactive, hkind, hframes, -⟩ := pop_reads hf hp
  have hwrought := pop_wrought (h.wrought hi hw) hi (h.scans hs.command) hf hc hp
  refine h.goes hgrows (hactive.trans hi) (hkind.trans hw) hwrought ?_
  intro _ x hx
  have hsingle := (h.word hi hw).single
  rw [hframes] at hx
  rw [hf, tail_cons] at hsingle
  exact hsingle x (mem_of_mem_head? hx)

/-- The bytes at the cursor are those a lookahead saw. -/
theorem Ahead.spans {text chars : Bytes} {n : ℕ} (h : Ahead text chars n) {w rest : Bytes}
    (ht : text = w ++ rest) (hlen : w.length = n) : Spans chars w := by
  obtain ⟨w', rest', heq, hlen', hspans⟩ := h
  rw [ht] at heq
  obtain ⟨rfl, -⟩ := append_inj heq (hlen.trans hlen'.symm)
  exact hspans

/-- A character behind the dollar at the cursor. -/
theorem Scanning.second (h : Scanning origin J fed m) {m₁ : Machine} (hr : Readies d m m₁)
    {rest : Bytes} (hb : m₁.source.unread = byteOf '$' :: rest) {value : UInt8}
    (hp : Peeked d m 1 value count) (ha : value.toNat < 128) :
    Ahead m₁.source.unread [byteOf '$', value] count := by
  obtain ⟨n, htraced⟩ := h.tracks
  rw [hr.unread] at hb ⊢
  exact hp.ahead₁ htraced.look hb (by decide) (by decide) ha

theorem single_of_head {text w rest rest' : Bytes} {byte : UInt8} (hb : text = byte :: rest)
    (ht : text = w ++ rest') (hlen : w.length = 1) : w = [byte] := by
  obtain ⟨b, rfl⟩ := length_eq_one_iff.mp hlen
  rw [hb] at ht
  cases ht
  rfl

theorem nameByte_ascii {value : UInt8} (h : nameByte value = true) : value.toNat < 128 := by
  simp only [nameByte, nameStart, digit, inRange, Bool.or_eq_true, Bool.and_eq_true,
    decide_eq_true_eq, beq_iff_eq] at h
  rcases h with ((⟨-, h⟩ | ⟨-, h⟩) | h) | ⟨-, h⟩
  · exact h.trans_lt (by decide)
  · exact h.trans_lt (by decide)
  · rw [h]
    decide
  · exact h.trans_lt (by decide)

/-- A parameter of one byte. -/
theorem parameter_byte {value : UInt8}
    (hv : digit value = true ∨ (ascii "@*#?-$!").contains value = true) :
    (nameByte value = true ∨ Expand.specialParameter value = true) ∧ value.toNat < 128 := by
  rcases hv with hv | hv
  · have hname : nameByte value = true := by
      unfold nameByte
      rw [hv, Bool.or_true]
    exact ⟨.inl hname, nameByte_ascii hname⟩
  · have hmem : value ∈ ascii "@*#?-$!" := by simpa using hv
    have hall : ∀ value ∈ ascii "@*#?-$!",
        Expand.specialParameter value = true ∧ value.toNat < 128 := by decide +kernel
    exact ⟨.inr (hall value hmem).1, (hall value hmem).2⟩

theorem opens_openers (h : Scanning origin J fed m) {m₁ : Machine} (hr : Readies d m m₁)
    {kind : FrameKind} {fragment : FragmentKind}
    (ho : Opens d m m₁ kind fragment quote count) :
    kind ≠ .command ∧ fragment = kind.fragmentKind ∧
      ∀ w rest, m₁.source.unread = w ++ rest → w.length = count → Openers quote w kind := by
  cases ho with
  | single rest hb =>
    exact ⟨by decide, rfl, fun w rest' hw hlen => ⟨rfl, single_of_head hb hw hlen⟩⟩
  | double rest hb =>
    exact ⟨by decide, rfl, fun w rest' hw hlen => ⟨rfl, single_of_head hb hw hlen⟩⟩
  | backquote rest hb quote =>
    exact ⟨by decide, rfl, fun w rest' hw hlen => single_of_head hb hw hlen⟩
  | parameter rest hb quote n hp =>
    exact ⟨by decide, rfl, fun w rest' hw hlen => (h.second hr hb hp (by decide)).spans hw hlen⟩
  | dollarSingle rest hb n hp =>
    exact ⟨by decide, rfl,
      fun w rest' hw hlen => ⟨rfl, (h.second hr hb hp (by decide)).spans hw hlen⟩⟩
  | simple rest hb quote value n hp hv =>
    have hname : nameByte value = true := by
      unfold nameByte
      rw [hv]
      rfl
    exact ⟨by decide, rfl, fun w rest' hw hlen =>
      ⟨value, .inl hname, (h.second hr hb hp (nameByte_ascii hname)).spans hw hlen⟩⟩

theorem closes_closers {kind : FrameKind} (hc : Closes m kind count) :
    ∀ w rest, m.source.unread = w ++ rest → w.length = count → Closers w kind := by
  intro w rest hw hlen
  cases hc with
  | single rest' hb => exact single_of_head hb hw hlen
  | double rest' hb => exact single_of_head hb hw hlen
  | dollarSingle rest' hb => exact single_of_head hb hw hlen
  | backquote rest' hb => exact single_of_head hb hw hlen
  | parameter rest' hb => exact single_of_head hb hw hlen
  | simple => exact length_eq_zero_iff.mp hlen

theorem pushParameter_formed (h : Formed d m bases) (hs : Scanning origin J fed m)
    (hi : m.lexer.active = true) (hw : m.lexer.kind = .word)
    (ho : ∀ w rest, m.source.unread = w ++ rest → w.length = count → Openers quote w .simple) :
    StepFormed d bases (m.pushParameter quote count) := by
  have hkeep := push_extends hs.checked .simple .parameter quote count
  have htracks := push_tracks hs.tracks hi hw hs.command (by decide : FrameKind.simple ≠ .arithmetic)
    .parameter quote count
  unfold pushParameter
  split
  · rename_i m₁ hpush
    exact h.failed hkeep hpush (push_failure hpush)
  · rename_i m₁ hpush
    rw [hpush] at hkeep htracks
    have hreads := push_reads hpush
    have hformed := push_formed h hs hi hw (by decide) rfl ho hpush hkeep
    have hscan : Scanning origin J fed m₁ :=
      ⟨htracks, hreads.failure.trans hs.failure, hreads.command.trans hs.command⟩
    have hframes : m₁.lexer.frames = _ :: m.lexer.frames := hreads.frames
    refine hformed.attempt (pop_extends hscan.based hframes (hscan.counts_top hframes) 0)
      (pop_failure hframes) ?_
    intro m₂ hpop hgrows
    refine pop_formed hformed hscan hframes ?_ hpop hgrows
    intro w rest _ hlen
    exact length_eq_zero_iff.mp hlen

/-- A command substitution is opened. -/
theorem command_formed (h : Formed d m bases) (hs : Scanning origin J fed m)
    (hi : m.lexer.active = true) (hw : m.lexer.kind = .word)
    (ho : Ahead m.source.unread [byteOf '$', byteOf '('] count)
    (hp : m.push .command .command quote count = .ok m') (hgrows : Grows m m') :
    Formed d (m'.onLexer fun l => { l with command := true }) bases := by
  have hreads := push_reads hp
  have hwrought := push_wrought (h.wrought hi hw) hi (h.scans hs.command)
    (show FragmentKind.command = FrameKind.command.fragmentKind from rfl)
    (fun w rest hunread hlen => ho.spans hunread hlen) hp
  have hgrows' : Grows m (m'.onLexer fun l => { l with command := true }) :=
    hgrows.trans (.onLexer m' _ rfl rfl (Nat.le_refl _) fun _ _ => ⟨rfl, rfl⟩)
  refine h.goes hgrows' (hreads.active.trans hi) (hreads.kind.trans hw)
    ⟨hwrought.shape, hwrought.nonzero⟩ ?_
  intro hc
  cases hc

theorem commandOpening_formed (h : Formed d m bases) (hs : Scanning origin J fed m)
    (hi : m.lexer.active = true) (hw : m.lexer.kind = .word)
    (ho : Ahead m.source.unread [byteOf '$', byteOf '('] count) :
    StepFormed d bases (dollar.commandOpening quote m count) := by
  have hkeep := push_extends hs.checked .command .command quote count
  unfold dollar.commandOpening
  split
  · rename_i m₁ hpush
    exact h.failed hkeep hpush (push_failure hpush)
  · rename_i m₁ hpush
    rw [hpush] at hkeep
    exact command_formed h hs hi hw ho hpush hkeep

/-! ### Candidates -/

theorem Waiting.lengths {ls : List Lexer} (h : Waiting d ls bases) :
    List.Forall₂ (fun base capture => base ≤ capture.1) bases
      (ls.map fun l => (l.raw.length, l.spellingPosition)) := by
  induction h with
  | nil => exact .nil
  | cons hi hc hle hs h0 hp h ih => exact .cons hle ih

/-- The ends of the aliases move with the tape. -/
theorem Spaced.compact {s s' : Source} (h : Spaced s) {n : ℕ} (ht : OnTape origin J fed n s)
    (hd : s'.data = s.unread)
    (ha : s'.aliases = s.aliases.map fun a => { a with stop := a.stop - s.cursor }) :
    Spaced s' := by
  intro a hmem
  rw [ha] at hmem
  obtain ⟨b, hb, rfl⟩ := mem_map.mp hmem
  have hlt := (pairwise_cons.mp ht.stops).1 b.stop (mem_map_of_mem hb)
  rw [hd]
  show (s.data.drop s.cursor)[b.stop - s.cursor - 1]? = _
  rw [getElem?_drop, show s.cursor + (b.stop - s.cursor - 1) = b.stop - 1 by omega]
  exact h b hb

/-- A checkpoint is pinned to the word it is made in. -/
theorem Formed.checkpoint (h : Formed d m bases) (hs : Scanning origin J fed m)
    (hi : m.lexer.active = true) (hw : m.lexer.kind = .word) (length : ℕ) (quote : Quote) :
    Formed d (m.checkpointArithmetic length quote) bases := by
  obtain ⟨n, htraced⟩ := hs.tracks
  have hscans := h.scans hs.command
  refine Broken.formed ⟨h.waiting, ?_, h.nonzero⟩ h.spaced hi hw (h.word hi hw) (fun _ => hscans)
  have hcaptures : (m.chain.map fun l => (l.raw.length, l.spellingPosition)) =
      (m.lexer.raw.length, m.lexer.spellingPosition) ::
        m.parents.map fun l => (l.raw.length, l.spellingPosition) := rfl
  refine Pinned.cons (h.spaced.compact htraced.tape rfl rfl) hcaptures (Nat.le_refl _)
    h.waiting.lengths ?_ ?_ (h.pinned.congr (fun _ _ => rfl) fun _ _ => ⟨rfl, rfl⟩)
  · show Shape d (m.lexer.raw.take m.lexer.raw.length)
      (m.lexer.fragments.take m.lexer.fragments.length)
      (m.lexer.frames.drop (m.lexer.frames.length - m.lexer.frames.length))
    rw [take_length, take_length, Nat.sub_self, drop_zero]
    exact h.word hi hw
  · show ∀ frame ∈ (m.lexer.frames.drop (m.lexer.frames.length - m.lexer.frames.length)).head?, _
    rw [Nat.sub_self, drop_zero]
    exact hscans

theorem Pinned.body {l : Lexer} {cs : List Checkpoint} {bound : ℕ}
    (h : Pinned d bases l cs bound) (begin : ℕ) :
    Pinned d bases l (cs.modifyHead fun c => { c with bodyBegin := begin }) bound := by
  cases h with
  | nil => exact .nil _
  | cons hs hc hle hb hshape hscans h => exact .cons hs hc hle hb hshape hscans h

theorem pushArithmetic_formed (h : Formed d m bases) (hs : Scanning origin J fed m)
    (hi : m.lexer.active = true) (hw : m.lexer.kind = .word) {second third : ℕ}
    (ho : Ahead m.source.unread [byteOf '$', byteOf '(', byteOf '('] third) :
    StepFormed d bases (m.pushArithmetic quote second third) := by
  have hformed := h.checkpoint hs hi hw second quote
  have hchecked : (m.checkpointArithmetic second quote).lexer.Checked := by
    intro c hc
    rcases mem_cons.mp hc with rfl | hc
    · exact ⟨Nat.le_refl _, Nat.le_refl _⟩
    · exact hs.checked c hc
  have hkeep := push_extends hchecked .arithmetic .arithmetic quote third
  unfold pushArithmetic
  split
  · rename_i m₁ hpush
    exact hformed.failed hkeep hpush (push_failure hpush)
  · rename_i m₁ hpush
    rw [hpush] at hkeep
    have hreads := push_reads hpush
    have hwrought := push_wrought (hformed.wrought hi hw) hi (h.scans hs.command)
      (show FragmentKind.arithmetic = FrameKind.arithmetic.fragmentKind from rfl)
      (fun w rest hunread hlen => ho.spans hunread hlen) hpush
    have hbroken := hformed.toBroken.grows hkeep
    have hspaced : Spaced m₁.source := hformed.spaced.grows hkeep
    refine Broken.formed ⟨hbroken.waiting, ?_, hbroken.nonzero⟩ hspaced (hreads.active.trans hi) (hreads.kind.trans hw) hwrought.shape ?_
    · exact (hbroken.pinned.body _).congr (fun _ _ => rfl) fun _ _ => ⟨rfl, rfl⟩
    · intro _ frame hframe
      have hframes : m₁.lexer.frames = _ :: m.lexer.frames := hreads.frames
      rw [show (m₁.onLexer _).lexer.frames = m₁.lexer.frames from rfl, hframes] at hframe
      cases hframe
      exact FrameKind.noConfusion

theorem popArithmetic_formed (h : Formed d m bases) (hs : Scanning origin J fed m)
    (hf : m.lexer.inFrame .arithmetic = true) {c : Checkpoint}
    (ha : m.lexer.arithmetic = c :: previous)
    (hc : Ahead m.source.unread closing count) :
    StepFormed d bases (m.popArithmetic previous count) := by
  obtain ⟨frame, frames, hframes, hk⟩ := inFrame_iff.mp hf
  have hkeep := pop_extends hs.based hframes (hs.counts_top hframes) count
  unfold popArithmetic
  split
  · rename_i m₁ hpop
    exact h.failed hkeep hpop (pop_failure hframes hpop)
  · rename_i m₁ hpop
    rw [hpop] at hkeep
    have hformed := pop_formed h hs hframes
      (by
        intro w rest hunread hlen
        rw [hk]
        exact hc.spans hunread hlen) hpop hkeep
    obtain ⟨hi, hw⟩ := hs.framed hframes
    obtain ⟨-, hcommand, hactive, hkind, -, harithmetic⟩ := pop_reads hframes hpop
    refine Broken.formed ⟨hformed.waiting, ?_, hformed.nonzero⟩ hformed.spaced (hactive.trans hi)
      (hkind.trans hw) (hformed.word (hactive.trans hi) (hkind.trans hw)) hformed.scans
    have hpinned := hformed.pinned
    rw [harithmetic, ha] at hpinned
    cases hpinned with
    | cons _ _ hle _ _ _ hrest =>
      exact (hrest.mono hle).congr (fun _ _ => rfl) fun _ _ => ⟨rfl, rfl⟩

theorem Waiting.restore {ls : List Lexer} {cs : List (ℕ × Position)} (h : Waiting d ls bases)
    (hc : List.Forall₂ (fun base capture => base ≤ capture.1) bases cs) :
    Waiting d (ls.zipWith restoreCapture cs) bases := by
  induction h generalizing cs with
  | nil => exact .nil
  | @cons l ls base bases hi hcommand hle hs h0 hp h ih =>
    cases hc with
    | @cons _ c _ cs hhead hrest =>
      have htake : ∀ i ≤ base, (l.raw.take c.1).take i = l.raw.take i := by
        intro i hi
        rw [take_take, Nat.min_eq_left (hi.trans hhead)]
      refine .cons hi hcommand ?_ ?_ ?_ (hp.congr htake fun _ _ => ⟨rfl, rfl⟩) (ih hrest)
      · show base ≤ (l.raw.take c.1).length
        rw [length_take]
        exact Nat.le_min.mpr ⟨hhead, hle⟩
      · show Shape d ((l.raw.take c.1).take base) l.fragments l.frames
        rw [htake base (Nat.le_refl _)]
        exact hs
      · intro hmem
        exact h0 (mem_of_mem_take hmem)

/-- The machine a replay goes back to. -/
theorem rewound_formed {n limit bound : ℕ} (hchain : Chain origin J fed n limit m.chain)
    (hle : limit ≤ n) {c : Checkpoint}
    (ha : m.lexer.arithmetic = c :: previous) (hwaiting : Waiting d m.parents bases)
    (hpinned : Pinned d bases m.lexer m.lexer.arithmetic bound) (hbound : bound ≤ m.lexer.raw.length)
    (h0 : (0 : UInt8) ∉ m.lexer.raw) :
    Formed d (m.rewound c previous) bases ∧
      Ahead c.source.unread [byteOf '$', byteOf '('] c.commandLength := by
  obtain ⟨-, hi, hw, -⟩ := hchain.rewound hle ha
  obtain ⟨low, -, hword, -⟩ := hchain
  have hcand := hword.candidates
  rw [ha] at hcand
  have hcount := hcand.frameCount_lt
  obtain ⟨k, hsaved, -, -, -, hinner⟩ := hcand.innermost
  refine ⟨?_, hsaved.opening⟩
  rw [ha] at hpinned
  cases hpinned with
  | @cons _ _ _ first rest hspaced hcaptures hfirst hbases hshape hscans hprevious =>
    have hlength : (m.lexer.raw.take first.1).length = first.1 := by
      rw [length_take, Nat.min_eq_left (hfirst.trans hbound)]
    have hraw : (m.rewound c previous).lexer.raw = m.lexer.raw.take first.1 := by
      show m.lexer.raw.take (c.captures.headD (0, {})).1 = _
      rw [hcaptures]
      rfl
    have hframes : (m.lexer.frames.drop (m.lexer.frames.length - c.frameCount)).length =
        c.frameCount := by
      rw [length_drop]
      omega
    refine Broken.formed ⟨?_, ?_, ?_⟩ hspaced hi hw ?_ (fun _ => hscans)
    · show Waiting d (m.parents.zipWith restoreCapture c.captures.tail) bases
      rw [hcaptures]
      exact hwaiting.restore hbases
    · show Pinned d bases (m.rewound c previous).lexer previous _
      rw [hraw, hlength]
      refine hprevious.congr ?_ ?_
      · intro i hi
        rw [hraw, take_take, Nat.min_eq_left hi]
      · intro c' hc'
        obtain ⟨hfragment, hframe⟩ := hinner.counts c' hc'
        rw [hframes] at hframe
        constructor
        · show (m.lexer.fragments.take c.fragmentCount).take c'.fragmentCount = _
          rw [take_take, Nat.min_eq_left hfragment.le]
        · show (m.lexer.frames.drop (m.lexer.frames.length - c.frameCount)).drop
            ((m.lexer.frames.drop (m.lexer.frames.length - c.frameCount)).length - c'.frameCount) = _
          rw [hframes, drop_drop]
          congr 1
          omega
    · rw [hraw]
      intro hmem
      exact h0 (mem_of_mem_take hmem)
    · rw [hraw]
      exact hshape

/-- A replay keeps the shapes. -/
theorem restore_formed {n limit bound : ℕ} (hchain : Chain origin J fed n limit m.chain)
    (hle : limit ≤ n) {c : Checkpoint}
    (ha : m.lexer.arithmetic = c :: previous) (hwaiting : Waiting d m.parents bases)
    (hpinned : Pinned d bases m.lexer m.lexer.arithmetic bound) (hbound : bound ≤ m.lexer.raw.length)
    (h0 : (0 : UInt8) ∉ m.lexer.raw) :
    match m.restore c previous with
    | .ok m' => Formed d m' bases
    | .error m' => Settled d m' bases ∨ Dead m' := by
  obtain ⟨htracks, hi, hw, hfailure⟩ := hchain.rewound hle ha
  obtain ⟨hformed, hopening⟩ := rewound_formed hchain hle ha hwaiting hpinned hbound h0
  have hscan : Scanning origin J fed (m.rewound c previous) := ⟨htracks, hfailure, rfl⟩
  have hkeep := push_extends hscan.checked .command .command c.quote c.commandLength
  rw [restore_eq]
  cases hpush : (m.rewound c previous).push .command .command c.quote c.commandLength with
  | error m₁ =>
    rw [hpush] at hkeep
    exact hkeep.imp
      (fun hgrows => (hformed.toBroken.grows hgrows).settled (push_failure hpush)) id
  | ok m₁ =>
    rw [hpush] at hkeep
    exact command_formed hformed hscan hi hw hopening hpush hkeep

variable (d) in
/-- What a replay leaves. -/
def ReplayFormed : Replay × Machine → Prop
  | (.replayed, m) => ∃ bases, Formed d m bases
  | (_, m) => (∃ bases, Settled d m bases) ∨ Dead m

/-- The lexer at a depth waits, or is the deepest. -/
theorem Broken.unwind (h : Broken d m bases) (depth : ℕ) :
    ∃ bases bound, Waiting d (m.unwind depth).parents bases ∧
      Pinned d bases (m.unwind depth).lexer (m.unwind depth).lexer.arithmetic bound ∧
      bound ≤ (m.unwind depth).lexer.raw.length ∧ (0 : UInt8) ∉ (m.unwind depth).lexer.raw := by
  have hdrop : ∀ (ls : List Lexer) (bases : List ℕ) (i : ℕ) (l : Lexer) (rest : List Lexer),
      Waiting d ls bases → ls.drop i = l :: rest → ∃ bases bound, Waiting d rest bases ∧
        Pinned d bases l l.arithmetic bound ∧ bound ≤ l.raw.length ∧ (0 : UInt8) ∉ l.raw := by
    intro ls bases i l rest hwaiting
    induction hwaiting generalizing i with
    | nil =>
      intro heq
      rw [drop_nil] at heq
      cases heq
    | @cons x ls base bases _ _ hle _ h0 hp h ih =>
      intro heq
      cases i with
      | zero =>
        cases heq
        exact ⟨bases, base, h, hp, hle, h0⟩
      | succ i => exact ih i heq
  obtain ⟨hchain, -⟩ := unwind_chain m depth
  have heq : m.chain.drop (m.depth - depth) = (m.unwind depth).lexer :: (m.unwind depth).parents :=
    hchain.symm
  cases hi : m.depth - depth with
  | zero =>
    rw [hi, drop_zero] at heq
    obtain ⟨hlexer, hparents⟩ := cons.inj heq
    rw [← hlexer, ← hparents]
    exact ⟨bases, _, h.waiting, h.pinned, Nat.le_refl _, h.nonzero⟩
  | succ i =>
    rw [hi] at heq
    exact hdrop m.parents bases i _ _ h.waiting heq

theorem replayArithmetic_formed (h : Settled d m bases) (ht : Tracks origin J fed m) (depth : ℕ)
    (error : Option Failure) : ReplayFormed d (m.replayArithmetic depth error) := by
  obtain ⟨n, htraced⟩ := ht
  unfold replayArithmetic
  dsimp only
  split
  · exact .inl ⟨bases, h⟩
  · rename_i c previous ha
    split
    · exact .inl ⟨bases, h⟩
    · split
      · exact .inr (failAt_dead rfl (by decide))
      · exact .inl ⟨bases, h⟩
      · obtain ⟨hchain, hlexer⟩ := unwind_chain m depth
        obtain ⟨limit, hle, hdrop⟩ := htraced.chain.drop (m.depth - depth)
        rw [← hchain] at hdrop
        rw [← hlexer] at ha
        obtain ⟨bases', bound, hwaiting, hpinned, hbound, h0⟩ := h.1.unwind depth
        have hrestore := restore_formed hdrop hle ha hwaiting hpinned hbound h0
        cases hr : (m.unwind depth).restore c previous with
        | ok m₁ =>
          rw [hr] at hrestore
          exact ⟨bases', hrestore⟩
        | error m₁ =>
          rw [hr] at hrestore
          exact hrestore.imp (fun hsettled => ⟨bases', hsettled⟩) id

theorem giveUp_formed (h : Formed d m bases) (hs : Scanning origin J fed m) :
    StepFormed d bases m.giveUp := by
  have hreplay := replayArithmetic_formed h.settled hs.tracks m.depth none
  unfold giveUp
  generalize m.replayArithmetic m.depth none = answer at hreplay
  obtain ⟨replay, m₁⟩ := answer
  cases replay with
  | replayed => exact hreplay
  | refused => exact hreplay
  | failed => exact hreplay

/-! ### Tokens -/

theorem Scanning.checkpoints (h : Scanning origin J fed m) (hf : m.lexer.frames = []) :
    m.lexer.arithmetic = [] := by
  by_contra hne
  obtain ⟨c, cs, hcs⟩ := exists_cons_of_ne_nil hne
  have hlt := (h.counts c (by rw [hcs]; exact mem_cons_self)).2
  rw [hf] at hlt
  exact Nat.not_lt_zero _ hlt

/-- A published token leaves an empty lexer. -/
theorem publish_broken (hwaiting : Waiting d m.parents bases) (hs : Spaced m.source)
    (ha : m.lexer.arithmetic = []) (hf : m.lexer.frames = [])
    (hc : m.lexer.kind = .rparen → Closable m bases)
    (ht : m.lexer.kind = .word →
      Shape d m.lexer.raw m.lexer.fragments [] ∧ (0 : UInt8) ∉ m.lexer.raw) :
    StepFormed d bases m.publish := by
  refine ⟨⟨⟨hwaiting, ?_, not_mem_nil⟩, hs, ?_, ?_, ?_, ?_, ?_⟩, ht⟩
  · show Pinned d bases _ m.lexer.arithmetic _
    rw [ha]
    exact .nil _
  · intro hi
    cases hi
  · intro _ frame hframe
    rw [show (m.onLexer _).lexer.frames = m.lexer.frames from rfl, hf] at hframe
    cases hframe
  · intro hi
    cases hi
  · intro _ last hlast
    cases hlast
    exact Nat.le_refl _
  · rintro (⟨hi, -⟩ | ⟨-, last, hlast, hkind, -⟩)
    · cases hi
    · cases hlast
      exact hc hkind

theorem publish_formed (h : Formed d m bases) (hs : Scanning origin J fed m)
    (hi : m.lexer.active = true) (hf : m.lexer.frames = []) : StepFormed d bases m.publish := by
  refine publish_broken h.waiting h.spaced (hs.checkpoints hf) hf (fun hk => h.closes (.inl ⟨hi, hk⟩)) ?_
  intro hk
  have hshape := h.word hi hk
  rw [hf] at hshape
  exact ⟨hshape, h.nonzero⟩

theorem startToken_active (m : Machine) (f : Lexer → Lexer)
    (hf : ∀ l : Lexer, (f l).active = l.active) : (m.startToken.onLexer f).lexer.active = true := by
  obtain ⟨l, heq, hl⟩ := startToken_eq m
  show (f m.startToken.lexer).active = true
  rw [hf, heq]
  exact hl

theorem newlineToken_formed (h : Formed d m bases) (hs : Scanning origin J fed m)
    (hi : m.lexer.active = false) : StepFormed d bases m.newlineToken := by
  obtain ⟨hbroken, -⟩ := h.start hs hi (fun l => { l with kind := .newline }) (fun _ => rfl)
    fun _ => rfl
  have hkeep := consume_extends (m.startToken.onLexer fun l => { l with kind := .newline }) 1
  obtain ⟨-, -, hframes, harithmetic, -⟩ := hs.idle hi
  obtain ⟨-, -, -, -, hframes', harithmetic', -⟩ := startToken_lexer m
  unfold newlineToken
  split
  · rename_i m₁ hconsume
    rw [hconsume] at hkeep
    exact hkeep.imp
      (fun hgrows => ⟨bases, (hbroken.grows hgrows).settled (consume_failure hconsume)⟩) id
  · rename_i m₁ hconsume
    rw [hconsume] at hkeep
    have hreads := consume_reads hconsume
    have hkind : m₁.lexer.kind = .newline := hreads.kind
    have hspaced : Spaced (m.startToken.onLexer fun l => { l with kind := .newline }).source :=
      h.spaced
    refine publish_broken (hbroken.grows hkeep).waiting (hspaced.grows hkeep)
      (hreads.arithmetic.trans (harithmetic'.trans harithmetic))
      (hreads.frames.trans (hframes'.trans hframes)) ?_ ?_
    · intro hk
      rw [hkind] at hk
      cases hk
    · intro hk
      rw [hkind] at hk
      cases hk

/-- A closing parenthesis is not the end of an alias, so the word around the lexer
captures it unless the alias was substituted inside. -/
theorem paren_closable (hs : Spaced m.source) (hw : Waiting d m.parents bases) {rest : Bytes}
    (hb : m.source.unread = byteOf ')' :: rest) (hc : m.consume 1 = .ok m') : Closable m' bases := by
  have hbyte : m.forgetLook.source.data.getD m.forgetLook.source.cursor 0 = byteOf ')' := by
    have hget := getD_unread m.source 0
    rw [hb] at hget
    exact hget
  have hget : m.source.data[m.source.cursor]? = some (byteOf ')') := by
    rw [← head?_drop]
    exact congrArg head? hb
  unfold consume at hc
  dsimp only at hc
  rw [hbyte, if_neg (by decide)] at hc
  cases hc
  intro parent rest base hparents hbase hclean
  have hkept : (m.forgetLook.source.advance (byteOf ')')).aliases = m.source.aliases := by
    unfold Source.advance
    cases ha : m.forgetLook.source.aliases with
    | nil => exact ha.symm
    | cons top as =>
      rw [Source.leaveAliases, if_neg]
      · exact ha.symm
      · intro hstop
        have hspace := hs top (by rw [show m.source.aliases = top :: as from ha]; exact mem_cons_self)
        have heq : top.stop - 1 = m.source.cursor := by
          rw [← hstop]
          rfl
        rw [heq, hget] at hspace
        exact absurd (Option.some.inj hspace) (by decide)
  have hparents' : captureParents m.forgetLook.source (byteOf ')') m.parents = parent :: rest :=
    hparents
  generalize m.parents = parents at hw hparents'
  cases hw with
  | nil => cases hparents'
  | @cons l ls base' bases' hi _ hle _ _ _ _ =>
    rw [captureParents] at hparents'
    obtain ⟨hparent, hrest⟩ := cons.inj hparents'
    cases hbase
    have howned : m.forgetLook.source.ownedBelow ls.length = false := by
      unfold Source.ownedBelow
      cases ha : m.forgetLook.source.aliases with
      | nil => rfl
      | cons top as =>
        have hle' := hclean top (by
          show top ∈ (m.forgetLook.source.advance (byteOf ')')).aliases
          rw [hkept, show m.source.aliases = top :: as from ha]
          exact mem_cons_self)
        have hlen : rest.length = ls.length := by
          rw [← hrest]
          exact length_captureParents
        rw [hlen] at hle'
        exact decide_eq_false (Nat.not_lt.mpr hle')
    rw [hi, howned] at hparent
    refine ⟨l.raw, ?_, hle⟩
    rw [← hparent]
    rfl

theorem operators_ascii : ∀ op ∈ operators, ∀ byte ∈ op.1,
    byte ≠ 0 ∧ byte ≠ byteOf '\\' ∧ byte.toNat < 128 := by
  decide +kernel

/-- The operators of one byte. -/
theorem operators_single : ∀ byte ∈ ascii "|&;()<>",
    let kind := (operators.find? fun op => op.1 == [byte]).map Prod.snd
    kind.isSome = true ∧ kind ≠ some .word ∧ (kind = some .rparen → byte = byteOf ')') := by
  decide +kernel

theorem operatorChar_kind {byte : UInt8} (ho : operatorChar byte = true) (other : TokenKind) :
    let kind := ((operators.find? fun op => op.1 == [byte]).map Prod.snd).getD other
    kind ≠ .word ∧ (kind = .rparen → byte = byteOf ')') := by
  have hmem : byte ∈ ascii "|&;()<>" := by
    unfold operatorChar at ho
    simpa using ho
  obtain ⟨hsome, hword, hparen⟩ := operators_single byte hmem
  obtain ⟨kind, hkind⟩ := Option.isSome_iff_exists.mp hsome
  rw [hkind] at hword hparen
  simp only [hkind, Option.getD_some]
  exact ⟨fun h => hword (by rw [h]), fun h => hparen (by rw [h])⟩

theorem startOperator_formed (h : Formed d m bases) (hs : Scanning origin J fed m)
    (hi : m.lexer.active = false) {byte : UInt8} {rest : Bytes}
    (hb : m.source.unread = byte :: rest) (ho : operatorChar byte = true) {kind : Lexer → TokenKind}
    (hk : ∀ l, kind l = ((operators.find? fun op => op.1 == [byte]).map Prod.snd).getD l.kind) :
    StepFormed d bases (m.startOperator byte kind) := by
  let f : Lexer → Lexer := fun l => { l with operatorText := [byte], kind := kind l }
  obtain ⟨hbroken, -⟩ := h.start hs hi f (fun _ => rfl) fun _ => rfl
  have hactive := startToken_active m f fun _ => rfl
  have hkeep := consume_extends (m.startToken.onLexer f) 1
  have hspaced : Spaced (m.startToken.onLexer f).source := h.spaced
  obtain ⟨hword, hparen⟩ := operatorChar_kind ho m.startToken.lexer.kind
  unfold startOperator
  cases hconsume : (m.startToken.onLexer f).consume 1 with
  | error m₁ =>
    rw [hconsume] at hkeep
    exact hkeep.imp
      (fun hgrows => ⟨bases, (hbroken.grows hgrows).settled (consume_failure hconsume)⟩) id
  | ok m₁ =>
    rw [hconsume] at hkeep
    have hreads := consume_reads hconsume
    obtain ⟨raw, position, heq⟩ := consume_lexer 1 hconsume
    have hkind : m₁.lexer.kind =
        ((operators.find? fun op => op.1 == [byte]).map Prod.snd).getD m.startToken.lexer.kind :=
      hreads.kind.trans (hk _)
    obtain ⟨-, -, hframes, -⟩ := hs.idle hi
    obtain ⟨-, -, -, -, hframes', -⟩ := startToken_lexer m
    have hnil : m₁.lexer.frames = [] := hreads.frames.trans (hframes'.trans hframes)
    have hi₁ : m₁.lexer.active = true := hreads.active.trans hactive
    refine ⟨hbroken.grows hkeep, hspaced.grows hkeep, ?_, ?_, ?_, ?_, ?_⟩
    · intro _ hw
      rw [hkind] at hw
      exact absurd hw hword
    · intro _ frame hframe
      rw [hnil] at hframe
      cases hframe
    · intro _ _
      rw [heq]
      exact cons_ne_nil _ _
    · intro hi'
      rw [hi₁] at hi'
      cases hi'
    · rintro (⟨-, hk'⟩ | ⟨hi', -⟩)
      · rw [hkind] at hk'
        rw [hparen hk'] at hb
        exact paren_closable hspaced hbroken.waiting hb hconsume
      · rw [hi₁] at hi'
        cases hi'

/-- An operator is more than a closing parenthesis when it goes on. -/
theorem operators_extend : ∀ op ∈ operators,
    op.2 ≠ .word ∧ op.1 ≠ [] ∧ (op.2 = .rparen → op.1 = ascii ")") := by
  decide

theorem operatorRound_formed (h : Formed d m bases) (hs : Scanning origin J fed m)
    (hi : m.lexer.active = true) (hk : m.lexer.kind ≠ .word) {s : Step}
    (hround : OperatorRound d m s) : StepFormed d bases s := by
  have hframes := hs.operator hk
  have harithmetic := hs.checkpoints hframes
  cases hround with
  | more hr => exact hr.formed hs h
  | publish hr hl =>
    exact publish_formed (hr.formed hs h) (hr.scanning hs) (by rw [hl, hi]) (by rw [hl, hframes])
  | @extend m₁ hr hl byte count hp kind hx ho =>
    have h₁ := hr.formed hs h
    have hbased : (m₁.onLexer fun l => { l with kind }).lexer.Based := by
      intro c hc
      have hnil : m₁.lexer.arithmetic = [] := by rw [hl, harithmetic]
      rw [show (m₁.onLexer fun l => { l with kind }).lexer.arithmetic = m₁.lexer.arithmetic from rfl,
        hnil] at hc
      cases hc
    have hgrows : Grows m₁ (m₁.onLexer fun l => { l with kind }) :=
      .onLexer m₁ _ rfl rfl (Nat.le_refl _) fun _ _ => ⟨rfl, rfl⟩
    have hkeep := hgrows.keeps (delimiter_extends hbased .none count)
    have hop := operators_extend _ (mem_of_find?_eq_some ho)
    have htext := h.operator hi hk
    unfold extendOperator
    split
    · rename_i m₂ hdelimiter
      exact h₁.failed hkeep hdelimiter (delimiter_failure hdelimiter)
    · rename_i m₂ hdelimiter
      rw [hdelimiter] at hkeep
      have hreads := delimiter_reads hdelimiter
      have hkind : m₂.lexer.kind = kind := hreads.kind
      have hi₂ : m₂.lexer.active = true := by
        rw [hreads.active]
        show m₁.lexer.active = true
        rw [hl, hi]
      have hnil : m₂.lexer.frames = [] := by
        rw [hreads.frames]
        show m₁.lexer.frames = []
        rw [hl, hframes]
      have hbroken := h₁.toBroken.grows hkeep
      have hspaced : Spaced m₂.source := h₁.spaced.grows hkeep
      refine ⟨⟨hbroken.waiting, hbroken.pinned.congr (fun _ _ => rfl) fun _ _ => ⟨rfl, rfl⟩,
        hbroken.nonzero⟩, ?_, ?_, ?_, ?_, ?_, ?_⟩
      · exact hspaced
      · intro _ hw
        exact absurd (hkind.symm.trans hw) hop.1
      · intro _ frame hframe
        rw [show (m₂.onLexer _).lexer.frames = m₂.lexer.frames from rfl, hnil] at hframe
        cases hframe
      · intro _ _
        exact hop.2.1
      · intro hi'
        have hi'' : m₂.lexer.active = false := hi'
        rw [hi₂] at hi''
        cases hi''
      · rintro (⟨-, hk'⟩ | ⟨hi', -⟩)
        · have hparen : candidate m.lexer.operatorText byte = ascii ")" := hop.2.2 (hkind.symm.trans hk')
          unfold candidate at hparen
          split at hparen
          · rw [hparen] at hx
            exact absurd hx (by decide)
          · have hlength := congrArg length hparen
            rw [length_append, length_singleton] at hlength
            exact absurd (length_eq_zero_iff.mp (Nat.succ.inj hlength)) htext
        · have hi'' : m₂.lexer.active = false := hi'
          rw [hi₂] at hi''
          cases hi''

/-! ### Rounds -/

theorem consume_sequence (h : m.consume count = .ok m') :
    m'.source.sequence = m.source.sequence + count := by
  induction count generalizing m with
  | zero =>
    cases h
    rfl
  | succ count ih =>
    unfold consume at h
    dsimp only at h
    split at h
    · cases h
    · rw [ih h]
      show (Source.leaveAliases _ _).sequence + count = _
      rw [(leaveAliases_sub _ _).2.1]
      show m.source.sequence + 1 + count = _
      omega

/-- Bytes between tokens. -/
theorem skip_formed (h : Formed d m bases) (hs : Scanning origin J fed m)
    (hi : m.lexer.active = false) (hpos : 0 < count) :
    StepFormed d bases (.attempt (m.consume count)) := by
  refine h.attempt (consume_extends m count) consume_failure ?_
  intro m' hconsume hgrows
  obtain ⟨-, -, hframes, -⟩ := hs.idle hi
  have hreads := consume_reads hconsume
  obtain ⟨raw, position, heq⟩ := consume_lexer count hconsume
  have hi' : m'.lexer.active = false := hreads.active.trans hi
  have hlast : m'.lexer.last = m.lexer.last := by rw [heq]
  have hsequence := consume_sequence hconsume
  refine ⟨h.toBroken.grows hgrows, h.spaced.grows hgrows, ?_, ?_, ?_, ?_, ?_⟩
  · intro hactive
    rw [hi'] at hactive
    cases hactive
  · intro _ frame hframe
    rw [hreads.frames, hframes] at hframe
    cases hframe
  · intro hactive
    rw [hi'] at hactive
    cases hactive
  · intro _ last hl
    rw [hlast] at hl
    have := h.last hi last hl
    omega
  · rintro (⟨hactive, -⟩ | ⟨-, last, hl, -, heq'⟩)
    · rw [hi'] at hactive
      cases hactive
    · -- The last token was read before these bytes.
      rw [hlast] at hl
      have := h.last hi last hl
      omega

theorem round_formed (hd : d.Prompt) (h : Formed d m bases) (hs : Scanning origin J fed m)
    (hw : m.lexer.active = true → m.lexer.kind = .word) {s : Step} (hround : Round d m s) :
    StepFormed d bases s := by
  cases hround with
  | more hr => exact hr.formed hs h
  | fail hr l message number position =>
    exact ((hr.formed hs h).toBroken.failAt l message number position).imp (fun h => ⟨bases, h⟩) id
  | stuck hr hf ha => exact .inl ⟨bases, (hr.formed hs h).settled⟩
  | skip hr hi count hskip =>
    have hpos : 0 < count := by cases hskip <;> decide
    exact skip_formed (hr.formed hs h) (hr.scanning hs) hi hpos
  | comment hr hi hc rest hb => exact (hr.formed hs h).relabel _ rfl rfl
  | piece hr hi kind quote count hc =>
    exact piece_formed hd (hr.formed hs h) (hr.scanning hs) hi (hr.word hw hi) quote hc
  | name hr hf value quote count hp hv =>
    exact name_formed (hr.formed hs h) (hr.scanning hs) hf quote count
  | push hr hi kind fragment quote count ho =>
    have h₁ := hr.formed hs h
    have hs₁ := hr.scanning hs
    obtain ⟨hk, hfragment, hopeners⟩ := opens_openers hs hr ho
    refine h₁.attempt (push_extends hs₁.checked kind fragment quote count) push_failure ?_
    intro m' hpush hgrows
    exact push_formed h₁ hs₁ hi (hr.word hw hi) hk hfragment hopeners hpush hgrows
  | parameter hr hi rest hb quote value count hp hv =>
    refine pushParameter_formed (hr.formed hs h) (hr.scanning hs) hi (hr.word hw hi) ?_
    intro w rest' hunread hlen
    have hclass := parameter_byte hv
    exact ⟨value, hclass.1, (hs.second hr hb hp hclass.2).spans hunread hlen⟩
  | pop hr frame frames hf count hc =>
    have h₁ := hr.formed hs h
    have hs₁ := hr.scanning hs
    refine h₁.attempt (pop_extends hs₁.based hf (hs₁.counts_top hf) count) (pop_failure hf) ?_
    intro m' hpop hgrows
    exact pop_formed h₁ hs₁ hf (closes_closers hc) hpop hgrows
  | @candidate m₁ hr hi rest hb quote second third h₂ h₃ =>
    refine pushArithmetic_formed (hr.formed hs h) (hr.scanning hs) hi (hr.word hw hi) ?_
    obtain ⟨m₀, hr₀, hsecond, hthird⟩ := h₃
    obtain ⟨n, htraced⟩ := hs.tracks
    have hunread : m₀.source.unread = m₁.source.unread := by rw [hr₀.unread, hr.unread]
    rw [← hunread]
    exact ahead_candidate (hr₀.lookOk htraced.look) (hunread.trans hb) hsecond hthird
  | expression hr hf c previous ha rest hb count hp =>
    refine popArithmetic_formed (hr.formed hs h) (hr.scanning hs) hf ha ?_
    obtain ⟨n, htraced⟩ := hs.tracks
    rw [hr.unread] at hb ⊢
    exact hp.ahead₁ htraced.look hb (by decide) (by decide) (by decide)
  | command hr hi rest hb quote count hp =>
    exact commandOpening_formed (hr.formed hs h) (hr.scanning hs) hi (hr.word hw hi)
      (hs.opening hr hb hp)
  | giveUp hr hf => exact giveUp_formed (hr.formed hs h) (hr.scanning hs)
  | publish hr hi hf => exact publish_formed (hr.formed hs h) (hr.scanning hs) hi hf
  | operator hr hi hc byte rest hb ho kind hk =>
    exact startOperator_formed (hr.formed hs h) (hr.scanning hs) hi hb ho hk
  | newline hr hi hc rest hb => exact newlineToken_formed (hr.formed hs h) (hr.scanning hs) hi
  | eof hf hi hp => exact h

theorem step_formed (hd : d.Prompt) (h : Formed d m bases) (hs : Scanning origin J fed m) :
    StepFormed d bases (m.step d) := by
  rcases step_round hs.frames hs.comment with ⟨hi, hk, hround⟩ | ⟨hw, hround⟩
  · exact operatorRound_formed h hs hi hk hround
  · exact round_formed hd h hs hw hround

/-! ### The interface -/

theorem scanLoop_formed (hd : d.Prompt) (h : Formed d m bases) (hs : Scanning origin J fed m)
    (fuel : ℕ) {result : LexResult} (hloop : scanLoop d fuel m = some (result, m')) :
    StepFormed d bases (.done result m') := by
  induction fuel generalizing m with
  | zero => cases hloop
  | succ fuel ih =>
    have hstep := step_ok (d := d) hs
    have hformed := step_formed hd h hs
    unfold scanLoop at hloop
    cases hround : m.step d with
    | again m₁ =>
      rw [hround] at hloop hstep hformed
      exact ih hformed hstep hloop
    | done result₁ m₁ =>
      rw [hround] at hloop hformed
      cases hloop
      exact hformed

theorem nextToken_formed (hd : d.Prompt) (h : Settled d m bases) (ht : Tracks origin J fed m)
    (depth : ℕ) :
    StepFormed d bases (.done (m.nextToken d depth).1 (m.nextToken d depth).2) := by
  unfold nextToken
  split
  · exact .inl ⟨bases, h⟩
  · rename_i hfailure
    have hnone : m.source.failure = none := by simpa using hfailure
    have hformed := h.2 hnone
    split
    · exact (h.1.failAt _ _ _ _).imp (fun h => ⟨bases, h⟩) id
    · split
      · exact hformed
      · rename_i hcommand
        have hscan : Scanning origin J fed m := ⟨ht, hnone, by simpa using hcommand⟩
        cases hloop : scanLoop d m.rounds m with
        | none => exact .inl ⟨bases, h⟩
        | some answer => exact scanLoop_formed hd hformed hscan _ hloop

/-- `csh_lexer_next` keeps the shapes, and a word it returns is finished. -/
theorem lexerNext_formed (hd : d.Prompt) (h : Settled d m bases) (ht : Tracks origin J fed m)
    (depth : ℕ) :
    StepFormed d bases (.done (m.lexerNext d depth).1 (m.lexerNext d depth).2) := by
  have hnext := nextToken_formed hd h ht depth
  have htracks := nextToken_ok (d := d) ht depth
  unfold lexerNext
  split
  · exact .inl ⟨bases, h⟩
  · generalize m.nextToken d depth = answer at hnext htracks
    obtain ⟨result, m₁⟩ := answer
    cases result with
    | error =>
      dsimp only
      split
      · exact hnext
      · rename_i hreplayable
        rcases hnext with ⟨bases', hsettled⟩ | hdead
        · rcases htracks with htracks | hdead
          · have hreplay := replayArithmetic_formed hsettled htracks depth m₁.source.failure
            generalize m₁.replayArithmetic depth m₁.source.failure = answer at hreplay
            obtain ⟨replay, m₂⟩ := answer
            cases replay with
            | replayed => exact hreplay
            | refused => exact hreplay
            | failed => exact hreplay
          · rw [hdead.lexerAt depth] at hreplayable
            exact absurd rfl hreplayable
        · rw [hdead.lexerAt depth] at hreplayable
          exact absurd rfl hreplayable
    | eof => exact hnext
    | token t => exact hnext
    | more => exact hnext
    | command => exact hnext
    | replay => exact hnext

end Rounds

end Lexical
end CShell
