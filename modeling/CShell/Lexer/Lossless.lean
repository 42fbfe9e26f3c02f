import CShell.Lexer.Telling

/-!
# Lexing is lossless

Without aliases, whatever calls a driver makes, the ledger of every lexer tiles
the input: each token holds exactly the bytes between its positions, tokens are in
order, between them lie blanks, continuations, a comment or skipped lines, and a
command fragment covers what its lexer read up to the closing parenthesis.

That a word captures the right bytes is `Tracks`; here the ledger is followed along
the same rounds.

## Main results

* `lexing_lossless`.

## References

`src/lexer.c`.
-/

namespace CShell
namespace Lexical

open Machine List

variable {origin : Position} {J fed : Bytes} {n : ℕ} {m m' : Machine} {r : Record}
  {rs : List Record} {d : Decoder}

/-! ### Between two tokens -/

theorem Plain.advance_sequence {s : Source} (h : Plain origin s) (byte : UInt8) :
    (s.advance byte).sequence = s.sequence + 1 := by
  rw [h.advance_eq]

/-- The bytes at the cursor are the input behind what was consumed. -/
theorem OnTape.extract {s : Source} (h : OnTape origin J fed n s) (ha : s.aliases = [])
    {w rest : Bytes} (hb : s.unread = w ++ rest) : J.extract n (n + w.length) = w := by
  have htape : fed.drop n = w ++ rest := by
    rw [← h.tape, ← hb]
    simp [Source.physicalCursor, Source.unread, ha]
  obtain ⟨tail, rfl⟩ := h.input
  rw [extract_eq_take_drop, Nat.add_sub_cancel_left, drop_append_of_le_length h.le, htape,
    append_assoc, take_left]

theorem extract_append {a b c : ℕ} (hab : a ≤ b) (hbc : b ≤ c) :
    J.extract a c = J.extract a b ++ J.extract b c := by
  rw [extract_eq_take_drop, extract_eq_take_drop, extract_eq_take_drop,
    show c - a = (b - a) + (c - b) by omega, take_add, drop_drop,
    Nat.add_sub_cancel' hab]

/-- Reading between two tokens captures nothing. -/
theorem consume_idle {count : ℕ} (h : Traced origin J fed n m) (hp : Plain origin m.source)
    (hi : m.lexer.active = false) (hc : m.consume count = .ok m') :
    Traced origin J fed (n + count) m' ∧ m'.lexer = m.lexer ∧ count ≤ m.source.unread.length ∧
      m'.source.unread = m.source.unread.drop count := by
  induction count generalizing m n with
  | zero =>
    cases hc
    exact ⟨h.onSource rfl rfl rfl rfl (lookOk_none rfl), rfl, Nat.zero_le _, rfl⟩
  | succ count ih =>
    unfold consume at hc
    dsimp only at hc
    split at hc
    · cases hc
    · rename_i hbyte
      generalize hb : m.forgetLook.source.data.getD m.forgetLook.source.cursor 0 = byte at hc hbyte
      have hne : m.source.unread ≠ [] := by
        intro hnil
        have hlen : m.source.data.length ≤ m.source.cursor := drop_eq_nil_iff.mp hnil
        apply hbyte
        rw [← hb]
        show m.source.data.getD m.source.cursor 0 = 0
        rw [getD_eq_getElem?_getD, getElem?_eq_none hlen]
        rfl
      have hunread : m.source.unread = byte :: m.source.unread.tail := by
        rw [← hb]
        exact head_unread hne
      have hforget : Traced origin J fed n m.forgetLook :=
        h.onSource rfl rfl rfl rfl (lookOk_none rfl)
      have hplain : Plain origin m.forgetLook.source := hp.congr rfl rfl rfl
      have hlexer : (m.forgetLook.advance byte).lexer = m.lexer := by
        show (if m.lexer.active then m.lexer.capture byte else m.lexer) = m.lexer
        rw [hi]
        rfl
      have hrest : (m.forgetLook.advance byte).source.unread = m.source.unread.tail := by
        show (m.forgetLook.source.advance byte).unread = _
        rw [hplain.advance_eq]
        show m.source.data.drop (m.source.cursor + 1) = _
        rw [← tail_drop]
        rfl
      obtain ⟨htraced, hlexer', hle, hunread'⟩ := ih
        (hforget.advance_physical rfl hplain.1 hunread) (hplain.advance byte) (by rw [hlexer, hi]) hc
      refine ⟨?_, hlexer'.trans hlexer, ?_, ?_⟩
      · rw [show n + (count + 1) = n + 1 + count by omega]
        exact htraced
      · rw [hrest] at hle
        rw [hunread, length_cons]
        omega
      · rw [hunread', hrest, ← drop_one, drop_drop, Nat.add_comm 1 count]

/-- A read that fails between two tokens leaves the failure. -/
theorem consume_stops {count : ℕ} (hp : Plain origin m.source) (hi : m.lexer.active = false)
    (hc : m.consume count = .error m') :
    Dead m' ∨ (m'.source.failure.isSome = true ∧ m'.lexer = m.lexer ∧
      m.source.sequence ≤ m'.source.sequence) := by
  induction count generalizing m with
  | zero => cases hc
  | succ count ih =>
    unfold consume at hc
    dsimp only at hc
    split at hc
    · cases hc
      rcases failAt_cases m.forgetLook m.forgetLook.lexer (ascii "NUL byte in shell input") 0
        m.forgetLook.source.position with ⟨failure, heq⟩ | hdead
      · right
        unfold Machine.fail
        rw [heq]
        exact ⟨rfl, rfl, Nat.le_refl _⟩
      · exact .inl hdead
    · generalize m.forgetLook.source.data.getD m.forgetLook.source.cursor 0 = byte at hc
      have hplain : Plain origin m.forgetLook.source := hp.congr rfl rfl rfl
      have hlexer : (m.forgetLook.advance byte).lexer = m.lexer := by
        show (if m.lexer.active then m.lexer.capture byte else m.lexer) = m.lexer
        rw [hi]
        rfl
      rcases ih (hplain.advance byte) (by rw [hlexer, hi]) hc with hdead | ⟨hf, hl, hle⟩
      · exact .inl hdead
      · refine .inr ⟨hf, hl.trans hlexer, ?_⟩
        have hsequence : (m.forgetLook.advance byte).source.sequence = m.source.sequence + 1 :=
          hplain.advance_sequence byte
        omega

/-- A separator is read. -/
theorem Between.skip {w : Bytes} {unread : Bytes} {count : ℕ} (hs : Skips m count)
    (h : Between w m.lexer.comment m.source.unread) (hu : unread = m.source.unread.drop count) :
    Between (w ++ m.source.unread.take count) m.lexer.comment unread := by
  cases hs with
  | comment hc byte rest hb h0 hn =>
    rw [hc] at h ⊢
    obtain ⟨separators, text, rfl, hseparators, hnewline, htext⟩ := h
    rw [hb] at htext ⊢
    refine ⟨separators, text ++ [byte], by simp, hseparators, ?_, .inr ?_⟩
    · intro hmem
      rcases mem_append.mp hmem with hmem | hmem
      · exact hnewline hmem
      · exact hn (mem_singleton.mp hmem).symm
    · rcases htext with ⟨rfl, hhead⟩ | hhead
      · exact hhead
      · rw [head?_append, hhead]
        rfl
  | blank byte rest hc hb hblank =>
    rw [hc] at h ⊢
    rw [hb] at h ⊢
    rcases h with h | ⟨-, hhead⟩
    · exact .inl (h.blank hblank)
    · cases hhead
      rcases hblank with hblank | hblank <;> exact absurd hblank (by decide)
  | continuation rest hc hb =>
    rw [hc] at h ⊢
    rw [hb] at h ⊢
    rcases h with h | ⟨-, hhead⟩
    · exact .inl h.continuation
    · exact absurd (Option.some.inj hhead) (by decide)

/-- More input may arrive. -/
theorem Between.mono {w unread unread' : Bytes} {comment : Bool} (h : Between w comment unread)
    (hu : ∀ byte, unread.head? = some byte → unread'.head? = some byte) :
    Between w comment unread' := by
  cases comment with
  | true =>
    obtain ⟨separators, text, heq, hseparators, hnewline, htext⟩ := h
    exact ⟨separators, text, heq, hseparators, hnewline,
      htext.imp (fun ⟨hnil, hhead⟩ => ⟨hnil, hu _ hhead⟩) id⟩
  | false => exact h.imp id fun ⟨hgap, hhead⟩ => ⟨hgap, hu _ hhead⟩

/-- A comment ends at a newline. -/
theorem Between.clear {w unread : Bytes} {comment : Bool} (h : Between w comment unread)
    (hn : comment = true → unread.head? = some (byteOf '\n')) : Between w false unread := by
  cases comment with
  | false => exact h
  | true =>
    obtain ⟨separators, text, rfl, hseparators, hnewline, htext⟩ := h
    have hhead := hn rfl
    refine .inr ⟨⟨separators, text, rfl, hseparators, .inr ⟨?_, hnewline⟩⟩, hhead⟩
    rcases htext with ⟨-, hhash⟩ | htext
    · rw [hhead] at hhash
      exact absurd (Option.some.inj hhash) (by decide)
    · exact htext

/-! ### Changes that the ledger does not see -/

/-- The lookahead and the eligibility are not part of the ledger. -/
theorem Told.onSource (h : Told origin J m r rs) {s : Source} (ha : s.aliases = m.source.aliases)
    (hp : s.position = m.source.position) (hq : s.sequence = m.source.sequence)
    (hf : s.failure = none → m.source.failure = none)
    (hu : ∀ byte, m.source.unread.head? = some byte → s.unread.head? = some byte) :
    Told origin J { m with source := s } r rs where
  level := ⟨h.level.1.congr ha hp hq, h.level.2⟩
  active := h.active
  idle hi := by
    obtain ⟨e, htale, hle, hpending, hbetween⟩ := h.idle hi
    refine ⟨e, htale, by rw [hq]; exact hle, hpending, ?_⟩
    intro hnone
    rw [hq]
    exact (hbetween (hf hnone)).mono hu
  opening := h.opening
  behind := h.behind

/-- A failure that sticks. -/
theorem Told.failAt (h : Told origin J m r rs) (l : Lexer) (message : Bytes) (number : ℕ)
    (position : Position) :
    Told origin J (m.failAt l message number position) r rs ∨
      Dead (m.failAt l message number position) := by
  rcases failAt_cases m l message number position with ⟨failure, heq⟩ | hdead
  · rw [heq]
    refine .inl (h.onSource rfl rfl rfl ?_ fun _ hb => hb)
    intro hnone
    cases hnone
  · exact .inr hdead

theorem startToken_plain (ha : m.source.aliases = []) :
    m.startToken = { m with
      source := { m.source with aliasEligible := false },
      lexer := { m.lexer with
        active := true, start := m.source.position, spellingPosition := m.source.position,
        aliasEligible := m.source.aliasEligible, tokenName := m.source.name } } := by
  unfold startToken
  rw [ha]

/-- Outside aliases the position is the one behind the bytes consumed. -/
theorem Traced.position (h : Traced origin J fed n m) (ha : m.source.aliases = []) :
    m.source.position = posAt origin J n := by
  rw [← h.tape.position]
  simp [Source.physicalPosition, ha]

/-- A token starts behind a gap. -/
theorem Told.start (h : Told origin J m r rs) (ht : Traced origin J fed n m)
    (hf : m.source.failure = none) (hi : m.lexer.active = false) (hc : m.lexer.comment = false)
    (hcommand : m.lexer.command = false) {f : Lexer → Lexer}
    (hset : ∀ l, ∃ kind text, f l = { l with kind := kind, operatorText := text }) :
    Told origin J (m.startToken.onLexer f) r rs := by
  obtain ⟨e, htale, hle, hpending, hbetween⟩ := h.idle hi
  obtain ⟨low, -, hword, -⟩ := ht.chain
  have hplain := h.level.1
  have hposition := ht.position hplain.1
  rw [startToken_plain hplain.1]
  unfold onLexer
  dsimp only
  obtain ⟨kind, text, heq⟩ := hset { m.lexer with
    active := true, start := m.source.position, spellingPosition := m.source.position,
    aliasEligible := m.source.aliasEligible, tokenName := m.source.name }
  rw [heq]
  refine ⟨⟨hplain.congr rfl rfl rfl, ?_⟩, fun _ => ?_, ?_, ?_, h.behind⟩
  · intro l hl c hmem
    rcases mem_cons.mp hl with rfl | hl
    · exact h.level.2 m.lexer mem_cons_self c hmem
    · exact h.level.2 l (mem_cons_of_mem _ hl) c hmem
  · have hstart : m.source.position.offset - origin.offset = n := by
      rw [hposition, posAt_offset ht.tape.le_input]
      omega
    have hsequence := ht.sequence hplain
    refine ⟨e, n, ?_, ⟨htale.items, htale.last⟩, hsequence ▸ hle, ?_, ?_⟩
    · unfold startOf
      rw [if_pos ⟨rfl, (hword.idle hi).2.2.2.2⟩, hstart]
    · have := hbetween hf
      rw [hc, hsequence] at this
      exact this.gap
    · rw [hpending]
      intro s hs
      cases hs
  · intro hi'
    cases hi'
  · intro hc'
    have hc'' : m.lexer.command = true := hc'
    rw [hcommand] at hc''
    cases hc''

/-- A change of the deepest lexer between two tokens. -/
theorem Told.onIdle (h : Told origin J m r rs) (hi : m.lexer.active = false) (f : Lexer → Lexer)
    (hi' : (f m.lexer).active = false) (hc : (f m.lexer).command = false)
    (ha : ∀ c ∈ (f m.lexer).arithmetic, c ∈ m.lexer.arithmetic)
    (hl : ∀ last, (f m.lexer).last = some last → m.lexer.last = some last)
    (hb : ∀ w, Between w m.lexer.comment m.source.unread →
      Between w (f m.lexer).comment m.source.unread) : Told origin J (m.onLexer f) r rs where
  level := by
    refine ⟨h.level.1, ?_⟩
    intro l hmem c hc
    rcases mem_cons.mp hmem with rfl | hmem
    · exact h.level.2 m.lexer mem_cons_self c (ha c hc)
    · exact h.level.2 l (mem_cons_of_mem _ hmem) c hc
  active hactive := by
    rw [show (m.onLexer f).lexer.active = (f m.lexer).active from rfl, hi'] at hactive
    cases hactive
  idle _ := by
    obtain ⟨e, htale, hle, hpending, hbetween⟩ := h.idle hi
    exact ⟨e, ⟨htale.items, fun last hlast => htale.last last (hl last hlast)⟩, hle, hpending,
      fun hnone => hb _ (hbetween hnone)⟩
  opening hcommand := by
    rw [show (m.onLexer f).lexer.command = (f m.lexer).command from rfl, hc] at hcommand
    cases hcommand
  behind := h.behind

/-- Making a machine ready keeps its ledger. -/
theorem Readies.told {m₁ : Machine} (hr : Readies d m m₁) (hs : Scanning origin J fed m)
    (h : Told origin J m r rs) : Told origin J m₁ r rs := by
  induction hr with
  | refl => exact h
  | @look m₁ wanted _ ih =>
    obtain ⟨c, heq⟩ := peek_eq (d := d) m₁ wanted
    rw [heq]
    exact ih.onSource rfl rfl rfl id fun _ hb => hb
  | @clear m₁ hnewline hr ih =>
    have hscan := hr.scanning hs
    cases hi : m₁.lexer.active with
    | true =>
      exact ih.goes hi hscan.command
        (.onLexer _ _ rfl (fun c hc => ⟨c, hc, rfl⟩) fun _ _ hf _ hframes => ⟨hf, hframes⟩)
    | false =>
      exact ih.onIdle hi _ hi hscan.command (fun c hc => hc) (fun _ hlast => hlast)
        fun _ hbetween => hbetween.clear hnewline
  | @frame m₁ f hf hr ih =>
    have hscan := hr.scanning hs
    cases hframes : m₁.lexer.frames with
    | nil =>
      have hsame : (m₁.onLexer fun l => l.onFrame f) = m₁ := by
        show { m₁ with lexer := m₁.lexer.onFrame f } = m₁
        unfold Lexer.onFrame
        rw [hframes]
      rw [hsame]
      exact ih
    | cons frame frames =>
      have hi : m₁.lexer.active = true := by
        by_contra hi
        rw [hscan.frames (by simpa using hi)] at hframes
        cases hframes
      have heq : m₁.lexer.onFrame f = { m₁.lexer with frames := f frame :: frames } := by
        unfold Lexer.onFrame
        rw [hframes]
      refine ih.goes hi hscan.command (.onLexer _ _ ?_ ?_ ?_)
      · rw [heq]
      · rw [heq]
        exact fun c hc => ⟨c, hc, rfl⟩
      · rw [heq]
        intro i g hg _ hne
        refine ⟨hg, ?_⟩
        rw [hframes] at hne
        intro frame' hmem
        rcases mem_cons.mp hmem with rfl | hmem
        · rw [(hf frame).2]
          exact hne frame mem_cons_self
        · exact hne frame' (mem_cons_of_mem _ hmem)
  | @start m₁ hi hc hr ih =>
    have hscan := hr.scanning hs
    obtain ⟨n, htraced⟩ := hscan.tracks
    exact ih.start htraced hscan.failure hi hc hscan.command fun l => ⟨.word, l.operatorText, rfl⟩

/-! ### The ends of a round -/

variable (origin J) in
/-- What a round leaves of the ledger. -/
def StepTold (r : Record) (rs : List Record) : Step → Prop
  | .again m => Told origin J m r rs
  | .done .error m => Told origin J m r rs ∨ Dead m
  | .done (.token t) m => Told origin J m (r.publish t) rs
  | .done .replay m => Told origin J m (r.rewind (m.commandFragment m.depth)) rs
  | .done _ m => Told origin J m r rs

theorem StepTold.attempt {result : Except Machine Machine}
    (h : Keeps (fun m => Told origin J m r rs) result) :
    StepTold origin J r rs (.attempt result) := by
  cases result with
  | error m => exact h
  | ok m => exact h

/-- A read that fails between two tokens keeps the ledger. -/
theorem Told.stops (h : Told origin J m r rs) (hi : m.lexer.active = false) {count : ℕ}
    (hc : m.consume count = .error m') : Told origin J m' r rs ∨ Dead m' := by
  obtain ⟨e, htale, hle, hpending, -⟩ := h.idle hi
  have hkeep := consume_goes origin m count
  rw [hc] at hkeep
  rcases consume_stops h.level.1 hi hc with hdead | ⟨hfailure, hlexer, hsequence⟩
  · exact .inr hdead
  · refine hkeep.imp ?_ id
    intro hgoes
    refine ⟨hgoes.level h.level, ?_, fun _ => ⟨e, ?_, hle.trans hsequence, hpending, ?_⟩, ?_,
      h.behind.suspends hgoes.parents⟩
    · rw [hlexer]
      exact h.active
    · rw [hlexer]
      exact htale
    · intro hnone
      rw [hnone] at hfailure
      cases hfailure
    · rw [hlexer]
      exact h.opening

/-- The bytes skipped between two tokens. -/
theorem Told.skip (h : Told origin J m r rs) (hs : Scanning origin J fed m)
    (hi : m.lexer.active = false) {count : ℕ} (hskip : Skips m count) :
    Keeps (fun m' => Told origin J m' r rs) (m.consume count) := by
  obtain ⟨n, htraced⟩ := hs.tracks
  have hplain := h.level.1
  obtain ⟨e, htale, hle, hpending, hbetween⟩ := h.idle hi
  have hkeep := consume_goes origin m count
  cases hc : m.consume count with
  | error m' => exact h.stops hi hc
  | ok m' =>
    rw [hc] at hkeep
    have hgoes : Goes origin m m' := hkeep
    obtain ⟨htraced', hlexer, hcount, hunread⟩ := consume_idle htraced hplain hi hc
    have hsequence := htraced.sequence hplain
    have hsequence' := htraced'.sequence (hgoes.level h.level).1
    refine ⟨hgoes.level h.level, ?_, fun _ => ⟨e, ?_, by omega, hpending, fun _ => ?_⟩, ?_,
      h.behind.suspends hgoes.parents⟩
    · rw [hlexer, hi]
      intro hactive
      cases hactive
    · rw [hlexer]
      exact htale
    · have htext := htraced.tape.extract hplain.1 (take_append_drop count m.source.unread).symm
      rw [length_take, Nat.min_eq_left hcount] at htext
      have hbefore := hbetween hs.failure
      rw [hsequence] at hbefore hle
      rw [hsequence', hlexer, extract_append hle (Nat.le_add_right n count), htext]
      exact hbefore.skip hskip hunread
    · rw [hlexer]
      exact h.opening

/-- The token a lexer publishes covers the input from its start to the cursor. -/
theorem Told.publish (h : Told origin J m r rs) (hs : Scanning origin J fed m)
    (hi : m.lexer.active = true) : StepTold origin J r rs m.publish := by
  obtain ⟨n, htraced⟩ := hs.tracks
  obtain ⟨e, a, hstart, htale, hle, hgap, hpending⟩ := h.active hi
  obtain ⟨low, hlow, hword, hrest⟩ := htraced.chain
  have hheld := (hword.held a hstart).2
  have hsequence := htraced.sequence h.level.1
  have hcomment : m.lexer.comment = false := by
    by_contra hc
    have := hword.comment (by simpa using hc)
    rw [hi] at this
    cases this
  have htoken : TokenAt origin J a n m.lexer.token :=
    ⟨hheld.start_le, htraced.tape.le_input, hheld.start, hheld.spelling, hheld.raw, hheld.fragments⟩
  refine ⟨⟨h.level.1, ?_⟩, ?_, fun _ => ?_, ?_, h.behind⟩
  · intro l hmem c hc
    rcases mem_cons.mp hmem with rfl | hmem
    · exact h.level.2 m.lexer mem_cons_self c hc
    · exact h.level.2 l (mem_cons_of_mem _ hmem) c hc
  · intro hactive
    cases hactive
  · refine ⟨n, ⟨?_, ?_⟩, Nat.le_of_eq hsequence.symm, rfl, fun _ => ?_⟩
    · exact .snoc htale.items hle hgap
        (.token htoken (fun s hmem => (hpending s hmem).1) fun s hmem => (hpending s hmem).2.1)
    · intro last hlast
      have hlast' := Option.some.inj hlast
      subst hlast'
      exact ⟨hsequence, _, _, getLast?_concat, rfl⟩
    · show Between (J.extract n m.source.sequence) m.lexer.comment _
      rw [hsequence, hcomment, extract_self]
      exact .inl .nil
  · intro hcommand
    have hcommand' : m.lexer.command = true := hcommand
    rw [hs.command] at hcommand'
    cases hcommand'

/-- The opening of a command substitution, when its delimiter was read. -/
theorem push_opening {quote : Quote} {count : ℕ}
    (h : m.push .command .command quote count = .ok m') :
    (∃ f, Opening m'.lexer f) ∧ m'.lexer.frames.head?.map Frame.fragment =
      some m.lexer.fragments.length := by
  have hframes := (push_reads h).frames
  rw [push_eq] at h
  obtain ⟨more, hmore⟩ := delimiter_grows h
  have hopened : (m.opened .command .command quote).lexer.fragments[m.lexer.fragments.length]? =
      some { kind := .command, quote, parent := m.lexer.parentFragment,
             begin := m.lexer.raw.length, stop := m.lexer.raw.length,
             start := m.lexer.spellingPosition, finish := m.lexer.spellingPosition } := by
    show (m.lexer.fragments ++ [_])[m.lexer.fragments.length]? = _
    rw [getElem?_append_right (Nat.le_refl _), Nat.sub_self]
    rfl
  have hlast : ((m.opened .command .command quote).lexer.fragments ++
      more)[m.lexer.fragments.length]? = some _ :=
    (List.getElem?_append_left (List.getElem?_eq_some_iff.mp hopened).1).trans hopened
  rw [hmore] at hlast
  exact ⟨⟨_, _, _, hframes, hlast, rfl⟩, by rw [hframes]; rfl⟩

/-- A command substitution waits for its lexer. -/
theorem Told.command (h : Told origin J m r rs) (hi : m.lexer.active = true)
    (ho : ∃ f, Opening m.lexer f) :
    Told origin J (m.onLexer fun l => { l with command := true }) r rs where
  level := by
    refine ⟨h.level.1, ?_⟩
    intro l hmem c hc
    rcases mem_cons.mp hmem with rfl | hmem
    · exact h.level.2 m.lexer mem_cons_self c hc
    · exact h.level.2 l (mem_cons_of_mem _ hmem) c hc
  active _ := by
    obtain ⟨e, a, hstart, htale, hrest⟩ := h.active hi
    exact ⟨e, a, hstart, ⟨htale.items, htale.last⟩, hrest⟩
  idle hi' := by
    have hi'' : m.lexer.active = false := hi'
    rw [hi] at hi''
    cases hi''
  opening _ := ho
  behind := h.behind

theorem commandOpening_told (h : Told origin J m r rs) (hi : m.lexer.active = true)
    (hc : m.lexer.command = false) (quote : Quote) (count : ℕ) :
    StepTold origin J r rs (dollar.commandOpening quote m count) := by
  have hkeep := h.keeps hi hc (push_goes origin m .command .command quote count)
  unfold dollar.commandOpening
  split
  · rename_i hpush
    rw [hpush] at hkeep
    exact hkeep
  · rename_i m₁ hpush
    rw [hpush] at hkeep
    exact Told.command hkeep ((push_reads hpush).active.trans hi) (push_opening hpush).1

theorem pushParameter_told (h : Told origin J m r rs) (hi : m.lexer.active = true)
    (hc : m.lexer.command = false) (quote : Quote) (count : ℕ) :
    StepTold origin J r rs (m.pushParameter quote count) := by
  have hkeep := h.keeps hi hc (push_goes origin m .simple .parameter quote count)
  unfold pushParameter
  split
  · rename_i hpush
    rw [hpush] at hkeep
    exact hkeep
  · rename_i m₁ hpush
    rw [hpush] at hkeep
    have hreads := push_reads hpush
    exact .attempt (Told.keeps hkeep (hreads.active.trans hi) (hreads.command.trans hc)
      (pop_goes origin m₁ hreads.frames 0))

/-- A checkpoint holds the tape as it is. -/
theorem Goes.checkpoint (hp : Plain origin m.source) (length : ℕ) (quote : Quote) :
    Goes origin m (m.checkpointArithmetic length quote) := by
  refine ⟨?_, Goes.forall₂_refl _, rfl, fun _ _ hf _ hframes => ⟨hf, hframes⟩⟩
  rintro ⟨-, hchecks⟩
  refine ⟨hp, ?_⟩
  intro l hmem c hc
  rcases mem_cons.mp hmem with rfl | hmem
  · rcases mem_cons.mp hc with rfl | hc
    · refine ⟨?_, hp.2⟩
      show m.source.aliases.map _ = []
      rw [hp.1, map_nil]
    · exact hchecks m.lexer mem_cons_self c hc
  · exact hchecks l (mem_cons_of_mem _ hmem) c hc

theorem pushArithmetic_told (h : Told origin J m r rs) (hi : m.lexer.active = true)
    (hc : m.lexer.command = false) (quote : Quote) (second third : ℕ) :
    StepTold origin J r rs (m.pushArithmetic quote second third) := by
  have hgoes := Goes.checkpoint h.level.1 second quote
  have hkeep := h.keeps hi hc (hgoes.keeps (push_goes origin _ .arithmetic .arithmetic quote third))
  unfold pushArithmetic
  split
  · rename_i hpush
    rw [hpush] at hkeep
    exact hkeep
  · rename_i m₁ hpush
    rw [hpush] at hkeep
    have hreads := push_reads hpush
    refine Told.goes hkeep (hreads.active.trans hi) (hreads.command.trans hc)
      (.onLexer _ _ rfl ?_ fun _ _ hf _ hframes => ⟨hf, hframes⟩)
    intro c hmem
    cases hcs : m₁.lexer.arithmetic with
    | nil =>
      have hmem' : c ∈ m₁.lexer.arithmetic.modifyHead _ := hmem
      rw [hcs] at hmem'
      cases hmem'
    | cons first others =>
      have hmem' : c ∈ m₁.lexer.arithmetic.modifyHead _ := hmem
      rw [hcs] at hmem'
      rcases mem_cons.mp hmem' with rfl | hmem'
      · exact ⟨first, mem_cons_self, rfl⟩
      · exact ⟨c, mem_cons_of_mem _ hmem', rfl⟩

theorem popArithmetic_told (h : Told origin J m r rs) (hs : Scanning origin J fed m)
    {c : Checkpoint} {previous : List Checkpoint} (hf : m.lexer.inFrame .arithmetic = true)
    (ha : m.lexer.arithmetic = c :: previous) (count : ℕ) :
    StepTold origin J r rs (m.popArithmetic previous count) := by
  obtain ⟨frame, frames, hframes, -⟩ := inFrame_iff.mp hf
  have hi : m.lexer.active = true := by
    by_contra hi
    rw [hs.frames (by simpa using hi)] at hframes
    cases hframes
  have hkeep := h.keeps hi hs.command (pop_goes origin m hframes count)
  unfold popArithmetic
  split
  · rename_i hpop
    rw [hpop] at hkeep
    exact hkeep
  · rename_i m₁ hpop
    rw [hpop] at hkeep
    obtain ⟨-, hcommand, hactive, -, -, harithmetic⟩ := pop_reads hframes hpop
    refine Told.goes hkeep (hactive.trans hi) (hcommand.trans hs.command)
      (.onLexer _ _ rfl ?_ fun _ _ hf _ hframes => ⟨hf, hframes⟩)
    intro c' hmem
    refine ⟨c', ?_, rfl⟩
    rw [harithmetic, ha]
    exact mem_cons_of_mem _ hmem

/-! ### Replaying -/

theorem Captured.length_eq {starts : List (Option ℕ)} {captures : List (ℕ × Position)}
    (h : Captured origin J n starts captures) : captures.length = starts.length := by
  induction starts generalizing captures with
  | nil =>
    cases captures with
    | nil => rfl
    | cons c captures => exact h.elim
  | cons start starts ih =>
    cases captures with
    | nil => exact h.elim
    | cons c captures =>
      rw [length_cons, length_cons, ih h.2]

theorem forall₂_restore {ls : List Lexer} {cs : List (ℕ × Position)} (h : cs.length = ls.length) :
    List.Forall₂ Suspends ls (ls.zipWith restoreCapture cs) := by
  induction ls generalizing cs with
  | nil => exact .nil
  | cons l ls ih =>
    cases cs with
    | nil => cases h
    | cons c cs => exact .cons ⟨_, _, rfl⟩ (ih (Nat.succ.inj h))

/-- A substitution that lies before a candidate is kept. -/
theorem Telling.rewind {l l' : Lexer} {k : ℕ} (h : Telling origin J l r)
    (hw : (l'.active, l'.start, l'.aliasName, l'.last) = (l.active, l.start, l.aliasName, l.last))
    (hf : l'.fragments = l.fragments.take k) (hframes : l'.frames ⊆ l.frames) :
    Telling origin J l' (r.rewind (some k)) := by
  obtain ⟨e, a, hstart, htale, hle, hgap, hpending⟩ := h
  simp only [Prod.mk.injEq] at hw
  obtain ⟨hactive, hposition, halias, hlast⟩ := hw
  refine ⟨e, a, ?_, ⟨htale.items, by rw [hlast]; exact htale.last⟩, hle, hgap, ?_⟩
  · rw [startOf_congr hactive halias hposition, hstart]
  · intro s hs
    obtain ⟨hmem, hlt⟩ := mem_filter.mp hs
    have hlt : s.fragment < k := by simpa using hlt
    obtain ⟨⟨⟨f, hget, hfragment⟩, hitems⟩, htiles, hne⟩ := hpending s hmem
    refine ⟨⟨⟨f, ?_, hfragment⟩, hitems⟩, htiles, fun frame hframe => hne frame (hframes hframe)⟩
    rw [hf, getElem?_take_of_lt hlt, hget]

/-- A candidate is replayed: the substitutions in it go.  Its opening was read before,
so it can be read again. -/
theorem restore_told {limit : ℕ} (hchain : Chain origin J fed n limit m.chain) (hle : limit ≤ n)
    (hl : ∀ l ∈ m.chain, ∀ c ∈ l.arithmetic, Plain origin c.source)
    (ht : Telling origin J m.lexer r) (hb : Behind origin J r.born m.parents rs)
    {c : Checkpoint} {previous : List Checkpoint} (ha : m.lexer.arithmetic = c :: previous) :
    ∃ m', m.restore c previous = .ok m' ∧
      Told origin J m' (r.rewind (m'.commandFragment m'.depth)) rs := by
  obtain ⟨-, hi, -, -⟩ := hchain.rewound hle ha
  obtain ⟨low, hlow, hword, hrest⟩ := hchain
  have hcand := hword.candidates
  rw [ha] at hcand
  obtain ⟨k, hsaved, -, -, hcount, -⟩ := hcand.innermost
  have hlength := hsaved.captures.length_eq
  have htail : c.captures.tail.length = m.parents.length := by
    rw [length_tail, hlength, length_cons, length_map, Nat.add_sub_cancel]
  have hparents := forall₂_restore htail
  have hrewound : Told origin J (m.rewound c previous) (r.rewind (some c.fragmentCount)) rs := by
    refine ⟨⟨?_, ?_⟩, fun _ => ?_, ?_, ?_, ?_⟩
    · exact hl m.lexer mem_cons_self c (by rw [ha]; exact mem_cons_self)
    · intro l hmem c' hc'
      rcases mem_cons.mp hmem with rfl | hmem
      · exact hl m.lexer mem_cons_self c' (by rw [ha]; exact mem_cons_of_mem _ hc')
      · obtain ⟨l', hl', heq⟩ := Goes.checkpoints hparents l hmem
        rw [heq] at hc'
        exact hl l' (mem_cons_of_mem _ hl') c' hc'
    · exact ht.rewind rfl rfl (drop_subset _ _)
    · intro hi'
      have hi'' : m.lexer.active = false := hi'
      rw [hi] at hi''
      cases hi''
    · intro hc
      cases hc
    · exact hb.suspends hparents
  obtain ⟨w, rest, hunread, hlen, hspells⟩ := hsaved.opening
  have h0 : (0 : UInt8) ∉ w := by
    intro hmem
    rcases hspells.spells.mem hmem with h | h | h
    · exact absurd h (by decide)
    · exact absurd h (by decide)
    · exact absurd h (by decide)
  have hopened : ((m.rewound c previous).opened .command .command c.quote).source.unread = w ++ rest :=
    hunread
  obtain ⟨m₁, hpush, -⟩ := @delimiter_total _ c.quote _ _ hopened h0
  rw [hlen, ← push_eq] at hpush
  have hkeep := hrewound.keeps hi rfl
    (push_goes origin (m.rewound c previous) .command .command c.quote c.commandLength)
  rw [hpush] at hkeep
  refine ⟨_, by rw [restore_eq, hpush], ?_⟩
  obtain ⟨hopening, hfragment⟩ := push_opening hpush
  have hlen : (m.rewound c previous).lexer.fragments.length = c.fragmentCount := by
    show (m.lexer.fragments.take c.fragmentCount).length = _
    rw [length_take]
    omega
  have hcommand : (m₁.onLexer fun l => { l with command := true }).commandFragment
      (m₁.onLexer fun l => { l with command := true }).depth = some c.fragmentCount := by
    rw [← hlen, ← hfragment]
    unfold commandFragment lexerAt
    rw [Nat.sub_self]
    rfl
  rw [hcommand]
  exact Told.command hkeep ((push_reads hpush).active.trans hi) hopening

theorem Behind.drop {born i : ℕ} {l : Lexer} {ls ls' : List Lexer}
    (h : Behind origin J born ls rs) (hd : ls.drop i = l :: ls') :
    ∃ r' rs', rs.drop i = r' :: rs' ∧ Telling origin J l r' ∧ Behind origin J r'.born ls' rs' := by
  induction i generalizing born ls rs with
  | zero =>
    rw [drop_zero] at hd
    subst hd
    cases rs with
    | nil => exact h.elim
    | cons r rs => exact ⟨r, rs, rfl, h.1.2.2.1, h.2⟩
  | succ i ih =>
    cases ls with
    | nil => cases hd
    | cons l₁ ls =>
      cases rs with
      | nil => exact h.elim
      | cons r rs => exact ih h.2 hd

theorem Told.depth_eq (h : Told origin J m r rs) : m.depth = rs.length := by
  have hlength : ∀ {born : ℕ} {ls : List Lexer} {rs : List Record},
      Behind origin J born ls rs → ls.length = rs.length := by
    intro born ls rs h
    induction ls generalizing born rs with
    | nil =>
      cases rs with
      | nil => rfl
      | cons r rs => exact h.elim
    | cons l ls ih =>
      cases rs with
      | nil => exact h.elim
      | cons r rs => rw [length_cons, length_cons, ih h.2]
  exact hlength h.behind

/-- The ledger of a pending lexer and of its ancestors. -/
theorem Told.drop (h : Told origin J m r rs) {i : ℕ} {l : Lexer} {ls : List Lexer}
    (hd : m.chain.drop i = l :: ls) (hi : l.active = true) :
    ∃ r' rs', (r :: rs).drop i = r' :: rs' ∧ Telling origin J l r' ∧
      Behind origin J r'.born ls rs' := by
  cases i with
  | zero =>
    have hd' : m.lexer :: m.parents = l :: ls := hd
    cases hd'
    exact ⟨r, rs, rfl, h.active hi, h.behind⟩
  | succ i => exact h.behind.drop hd

variable (origin J) in
/-- What a replay on the lexer at a depth leaves of the ledger. -/
def ReplayTold (r : Record) (rs : List Record) (i : ℕ) : Replay × Machine → Prop
  | (.replayed, m) =>
    ∃ r' rs', (r :: rs).drop i = r' :: rs' ∧
      Told origin J m (r'.rewind (m.commandFragment m.depth)) rs'
  | (_, m) => Told origin J m r rs ∨ Dead m

theorem replayArithmetic_told (h : Told origin J m r rs) (ht : Tracks origin J fed m) (depth : ℕ)
    (error : Option Failure) :
    ReplayTold origin J r rs (m.depth - depth) (m.replayArithmetic depth error) := by
  obtain ⟨n, htraced⟩ := ht
  unfold replayArithmetic
  dsimp only
  split
  · exact .inl h
  · rename_i c previous ha
    split
    · exact .inl h
    · split
      · exact .inr (failAt_dead rfl (by decide))
      · exact .inl h
      · obtain ⟨hchain, hlexer⟩ := unwind_chain m depth
        obtain ⟨limit, hle, hdrop⟩ := htraced.chain.drop (m.depth - depth)
        rw [← hchain] at hdrop
        rw [← hlexer] at ha
        have hi := (hdrop.rewound hle ha).2.1
        obtain ⟨r', rs', hrecords, htelling, hbehind⟩ := h.drop hchain.symm hi
        have hplain : ∀ l ∈ (m.unwind depth).chain, ∀ c ∈ l.arithmetic, Plain origin c.source := by
          intro l hmem
          rw [hchain] at hmem
          exact h.level.2 l (mem_of_mem_drop hmem)
        obtain ⟨m', hrestore, htold⟩ := restore_told hdrop hle hplain htelling hbehind ha
        rw [hrestore]
        exact ⟨r', rs', hrecords, htold⟩

theorem giveUp_told (h : Told origin J m r rs) (hs : Scanning origin J fed m) :
    StepTold origin J r rs m.giveUp := by
  have hreplay := replayArithmetic_told h hs.tracks m.depth none
  unfold giveUp
  rw [Nat.sub_self] at hreplay
  generalize m.replayArithmetic m.depth none = answer at hreplay
  obtain ⟨replay, m₁⟩ := answer
  cases replay with
  | replayed =>
    obtain ⟨r', rs', heq, htold⟩ := hreplay
    cases heq
    exact htold
  | refused => exact hreplay
  | failed => exact hreplay

/-! ### Rounds -/

section

variable (h : Told origin J m r rs)
include h

section

variable (hs : Scanning origin J fed m)
include hs

theorem newlineToken_told (hi : m.lexer.active = false) (hq : m.lexer.comment = false) :
    StepTold origin J r rs m.newlineToken := by
  obtain ⟨n, htraced⟩ := hs.tracks
  have hset : ∀ l : Lexer, ∃ kind text, ({ l with kind := .newline } : Lexer) =
      { l with kind := kind, operatorText := text } := fun l => ⟨.newline, l.operatorText, rfl⟩
  have htracks := htraced.start hi hq hset
  have htold := h.start htraced hs.failure hi hq hs.command hset
  have hactive : (m.startToken.onLexer fun l => { l with kind := .newline }).lexer.active = true := by
    obtain ⟨l, heq, hl⟩ := startToken_eq m
    show m.startToken.lexer.active = true
    rw [heq]
    exact hl
  have hcommand : (m.startToken.onLexer fun l => { l with kind := .newline }).lexer.command = false :=
    (startToken_lexer m).2.2.2.2.2.2.1.trans hs.command
  have hkeep := htold.keeps hactive hcommand (consume_goes origin _ 1)
  have hkeep' := consume_tracks ⟨n, htracks⟩ 1
  unfold newlineToken
  split
  · rename_i hconsume
    rw [hconsume] at hkeep
    exact hkeep
  · rename_i m₁ hconsume
    rw [hconsume] at hkeep hkeep'
    have hreads := consume_reads hconsume
    exact Told.publish hkeep ⟨hkeep', hreads.failure.trans hs.failure, hreads.command.trans hcommand⟩
      (hreads.active.trans hactive)

theorem startOperator_told (hi : m.lexer.active = false) (hq : m.lexer.comment = false) (byte : UInt8)
    (kind : Lexer → TokenKind) : StepTold origin J r rs (m.startOperator byte kind) := by
  obtain ⟨n, htraced⟩ := hs.tracks
  have htold := h.start htraced hs.failure hi hq hs.command
    (f := fun l => { l with operatorText := [byte], kind := kind l })
    fun l => ⟨kind l, [byte], rfl⟩
  refine .attempt (htold.keeps ?_ ?_ (consume_goes origin _ 1))
  · obtain ⟨l, heq, hl⟩ := startToken_eq m
    show m.startToken.lexer.active = true
    rw [heq]
    exact hl
  · exact (startToken_lexer m).2.2.2.2.2.2.1.trans hs.command

/-- A round in an operator keeps the ledger. -/
theorem operatorRound_told (hi : m.lexer.active = true) {s : Step} (hround : OperatorRound d m s) :
    StepTold origin J r rs s := by
  cases hround with
  | more hr => exact hr.told hs h
  | publish hr hl => exact (hr.told hs h).publish (hr.scanning hs) (by rw [hl, hi])
  | @extend m₁ hr hl byte count hp kind hx ho =>
    have h₁ := hr.told hs h
    have hi₁ : m₁.lexer.active = true := by rw [hl, hi]
    have hc₁ := (hr.scanning hs).command
    have hset : Goes origin m₁ (m₁.onLexer fun l => { l with kind }) :=
      .onLexer _ _ rfl (fun c hc => ⟨c, hc, rfl⟩) fun _ _ hf _ hframes => ⟨hf, hframes⟩
    have hkeep := h₁.keeps hi₁ hc₁ (hset.keeps (delimiter_goes origin _ .none count))
    unfold extendOperator
    split
    · rename_i hdelimiter
      rw [hdelimiter] at hkeep
      exact hkeep
    · rename_i m₂ hdelimiter
      rw [hdelimiter] at hkeep
      have hreads := delimiter_reads hdelimiter
      exact Told.goes hkeep (hreads.active.trans hi₁) (hreads.command.trans hc₁)
        (.onLexer _ _ rfl (fun c hc => ⟨c, hc, rfl⟩) fun _ _ hf _ hframes => ⟨hf, hframes⟩)

/-- A round outside operators keeps the ledger. -/
theorem round_told {s : Step} (hround : Round d m s) : StepTold origin J r rs s := by
  have hopen : ∀ {m₁ : Machine} {frame : Frame} {frames : List Frame}, Readies d m m₁ →
      m₁.lexer.frames = frame :: frames → m₁.lexer.active = true := by
    intro m₁ frame frames hr hf
    by_contra hi
    rw [(hr.scanning hs).frames (by simpa using hi)] at hf
    cases hf
  cases hround with
  | more hr => exact hr.told hs h
  | fail hr l message number position => exact (hr.told hs h).failAt l message number position
  | stuck hr hf ha => exact .inl (hr.told hs h)
  | skip hr hi count hskip => exact .attempt ((hr.told hs h).skip (hr.scanning hs) hi hskip)
  | @comment m₁ hr hi hc rest hb =>
    refine (hr.told hs h).onIdle hi _ hi (hr.scanning hs).command (fun c hc => hc)
      (fun _ hlast => hlast) ?_
    intro w hbetween
    rw [hc] at hbetween
    rcases hbetween with hseparators | ⟨-, hhead⟩
    · exact ⟨w, [], (append_nil w).symm, hseparators, by simp, .inl ⟨rfl, by rw [hb]; rfl⟩⟩
    · rw [hb] at hhead
      exact absurd (Option.some.inj hhead) (by decide)
  | piece hr hi kind quote count hc =>
    have hk : kind ≠ .command := by
      cases hc <;> decide
    exact .attempt ((hr.told hs h).keeps hi (hr.scanning hs).command (piece_goes origin _ hk _ _))
  | name hr hf value quote count hp hv =>
    obtain ⟨frame, frames, hframes, -⟩ := inFrame_iff.mp hf
    exact .attempt ((hr.told hs h).keeps (hopen hr hframes) (hr.scanning hs).command
      (delimiter_goes origin _ _ _))
  | push hr hi kind fragment quote count ho =>
    exact .attempt ((hr.told hs h).keeps hi (hr.scanning hs).command (push_goes origin _ _ _ _ _))
  | parameter hr hi rest hb quote value count hp hv =>
    exact pushParameter_told (hr.told hs h) hi (hr.scanning hs).command quote count
  | pop hr frame frames hf count hc =>
    exact .attempt ((hr.told hs h).keeps (hopen hr hf) (hr.scanning hs).command
      (pop_goes origin _ hf _))
  | candidate hr hi rest hb quote second third h₂ h₃ =>
    exact pushArithmetic_told (hr.told hs h) hi (hr.scanning hs).command quote second third
  | expression hr hf c previous ha rest hb count hp =>
    exact popArithmetic_told (hr.told hs h) (hr.scanning hs) hf ha count
  | command hr hi rest hb quote count hp =>
    exact commandOpening_told (hr.told hs h) hi (hr.scanning hs).command quote count
  | giveUp hr hf => exact giveUp_told (hr.told hs h) (hr.scanning hs)
  | publish hr hi hf => exact (hr.told hs h).publish (hr.scanning hs) hi
  | operator hr hi hc byte rest hb ho kind hk =>
    exact startOperator_told (hr.told hs h) (hr.scanning hs) hi hc byte kind
  | newline hr hi hc rest hb => exact newlineToken_told (hr.told hs h) (hr.scanning hs) hi hc
  | eof hf hi hp => exact h

theorem step_told : StepTold origin J r rs (m.step d) := by
  rcases step_round hs.frames hs.comment with ⟨hi, -, hround⟩ | ⟨-, hround⟩
  · exact operatorRound_told h hs hi hround
  · exact round_told h hs hround

end

end

/-! ### The interface -/

theorem scanLoop_told (h : Told origin J m r rs) (hs : Scanning origin J fed m) (fuel : ℕ)
    {result : LexResult} (hloop : scanLoop d fuel m = some (result, m')) :
    StepTold origin J r rs (.done result m') := by
  induction fuel generalizing m with
  | zero => cases hloop
  | succ fuel ih =>
    have hstep := step_ok (d := d) hs
    have htold := step_told (d := d) h hs
    unfold scanLoop at hloop
    cases hround : m.step d with
    | again m₁ =>
      rw [hround] at hloop hstep htold
      exact ih htold hstep hloop
    | done result₁ m₁ =>
      rw [hround] at hloop htold
      cases hloop
      exact htold

theorem nextToken_told (h : Told origin J m r rs) (ht : Tracks origin J fed m) (depth : ℕ) :
    StepTold origin J r rs (.done (m.nextToken d depth).1 (m.nextToken d depth).2) := by
  unfold nextToken
  split
  · exact .inl h
  · rename_i hfailure
    have hnone : m.source.failure = none := by simpa using hfailure
    split
    · exact h.failAt _ _ _ _
    · split
      · exact h
      · rename_i hcommand
        have hscan : Scanning origin J fed m := ⟨ht, hnone, by simpa using hcommand⟩
        cases hloop : scanLoop d m.rounds m with
        | none => exact .inl h
        | some answer => exact scanLoop_told h hscan _ hloop

theorem nextToken_depth {depth : ℕ} (hne : depth ≠ m.depth)
    (hf : m.source.failure.isSome = false) : Dead (m.nextToken d depth).2 := by
  unfold nextToken
  rw [hf]
  simp only [Bool.false_eq_true, if_false]
  rw [if_pos hne]
  exact failAt_dead (by simpa using hf) (by decide)

/-- `csh_lexer_next` keeps the ledger. -/
theorem lexerNext_told (h : Told origin J m r rs) (ht : Tracks origin J fed m) (depth : ℕ) :
    StepTold origin J r rs (.done (m.lexerNext d depth).1 (m.lexerNext d depth).2) := by
  have hnext := nextToken_told (d := d) h ht depth
  have htracks := nextToken_ok (d := d) ht depth
  have hdepth := @nextToken_depth m d depth
  unfold lexerNext
  split
  · exact .inl h
  · rename_i hfailure
    have hdepth := fun hne => hdepth hne (by simpa using hfailure)
    generalize m.nextToken d depth = answer at hnext htracks hdepth
    obtain ⟨result, m₁⟩ := answer
    cases result with
    | error =>
      dsimp only
      split
      · exact hnext
      · rename_i hreplayable
        have hlive : ¬Dead m₁ := by
          intro hdead
          rw [hdead.lexerAt depth] at hreplayable
          exact hreplayable rfl
        have htold := hnext.resolve_right hlive
        have htracks₁ := htracks.resolve_right hlive
        have heq : m₁.depth - depth = 0 := by
          have : depth = m.depth := by
            by_contra hne
            exact hlive (hdepth hne)
          rw [this]
          rw [htold.depth_eq, h.depth_eq, Nat.sub_self]
        have hreplay := replayArithmetic_told htold htracks₁ depth m₁.source.failure
        rw [heq] at hreplay
        generalize m₁.replayArithmetic depth m₁.source.failure = answer at hreplay
        obtain ⟨replay, m₂⟩ := answer
        cases replay with
        | replayed =>
          obtain ⟨r', rs', hrecords, htold'⟩ := hreplay
          cases hrecords
          exact htold'
        | refused => exact hreplay
        | failed => exact hreplay
    | eof => exact hnext
    | token t => exact hnext
    | more => exact hnext
    | command => exact hnext
    | replay => exact hnext

/-- More input leaves the ledgers of the suspended lexers. -/
theorem Behind.feed {born : ℕ} {ls : List Lexer} (h : Behind origin J born ls rs) (bytes : Bytes)
    (final : Bool) : Behind origin J born (ls.map (Lexer.feed bytes final)) rs := by
  induction ls generalizing born rs with
  | nil => exact h
  | cons l ls ih =>
    cases rs with
    | nil => exact h.elim
    | cons r rs =>
      obtain ⟨⟨hactive, hcommand, ⟨e, a, hstart, htale, htelling⟩, hopening⟩, hrest⟩ := h
      exact ⟨⟨hactive, hcommand, ⟨e, a, hstart, ⟨htale.items, htale.last⟩, htelling⟩, hopening⟩,
        ih hrest⟩

theorem Told.feed (h : Told origin J m r rs) (bytes : Bytes) (final : Bool) :
    Told origin J
      { source := m.source.compact.append bytes final, lexer := m.lexer.feed bytes final,
        parents := m.parents.map (Lexer.feed bytes final) } r rs where
  level := by
    refine ⟨⟨?_, h.level.1.2⟩, ?_⟩
    · show m.source.aliases.map _ = []
      rw [h.level.1.1, map_nil]
    · intro l hmem c hc
      have hmem' : l ∈ m.chain.map (Lexer.feed bytes final) := hmem
      obtain ⟨l', hl', rfl⟩ := mem_map.mp hmem'
      obtain ⟨c', hc', rfl⟩ := mem_map.mp hc
      exact (h.level.2 l' hl' c' hc').congr rfl rfl rfl
  active hi := by
    obtain ⟨e, a, hstart, htale, htelling⟩ := h.active hi
    exact ⟨e, a, hstart, ⟨htale.items, htale.last⟩, htelling⟩
  idle hi := by
    obtain ⟨e, htale, hle, hpending, hbetween⟩ := h.idle hi
    refine ⟨e, ⟨htale.items, htale.last⟩, hle, hpending, ?_⟩
    intro hnone
    refine (hbetween hnone).mono ?_
    intro byte hhead
    show (m.source.unread ++ bytes).head? = some byte
    rw [head?_append, hhead]
    rfl
  opening := h.opening
  behind := h.behind.feed bytes final

/-- The lexer of a command substitution starts with an empty ledger. -/
theorem Told.commandBegin (h : Told origin J m r rs) (ht : Traced origin J fed n m)
    (hc : m.lexer.command = true) :
    Told origin J { m with lexer := {}, parents := m.lexer :: m.parents } { born := n } (r :: rs) := by
  obtain ⟨low, -, hword, -⟩ := ht.chain
  have hi : m.lexer.active = true := by
    by_contra hi
    obtain ⟨frame, frames, hframes, -⟩ := inFrame_iff.mp (hword.command hc)
    rw [(hword.idle (by simpa using hi)).2.2.1] at hframes
    cases hframes
  have hsequence := ht.sequence h.level.1
  obtain ⟨f, hopening⟩ := h.opening hc
  refine ⟨⟨h.level.1, ?_⟩, ?_, fun _ => ?_, ?_, ⟨hi, hc, h.active hi, f, hopening, ?_⟩, h.behind⟩
  · intro l hmem c hc
    rcases mem_cons.mp hmem with rfl | hmem
    · cases hc
    · exact h.level.2 l hmem c hc
  · intro hactive
    cases hactive
  · refine ⟨n, ⟨.nil n, fun last hlast => ?_⟩, Nat.le_of_eq hsequence.symm, rfl, fun _ => ?_⟩
    · cases hlast
    · rw [hsequence, extract_self]
      exact .inl .nil
  · intro hcommand
    cases hcommand
  · intro a hstart
    obtain ⟨frame, frames, -, hget, -⟩ := hopening
    have hmark := (hword.held a hstart).2.fragments f (mem_of_getElem? hget)
    have := hmark.ordered
    have := hmark.inside
    show a + f.begin ≤ n
    omega

/-- The fragments of the frames lie before an index. -/
theorem Candidates.fragment_lt {starts : List (Option ℕ)} {fragments : List Fragment}
    {low index limit : ℕ} {frames : List Frame} {cs : List Checkpoint}
    (h : Candidates origin J fed starts fragments low frames cs index limit) :
    ∀ frame ∈ frames, frame.fragment < index := by
  induction h with
  | nil => simp
  | frame _ hi _ ih =>
    intro frame hmem
    rcases mem_cons.mp hmem with rfl | hmem
    · exact hi
    · exact (ih frame hmem).trans hi
  | candidate _ hi _ _ _ _ _ _ ih =>
    intro frame hmem
    rcases mem_cons.mp hmem with rfl | hmem
    · exact hi
    · exact (ih frame hmem).trans hi

/-- The token that closes a substitution is the last of its lexer. -/
theorem Told.closes (h : Told origin J m r rs) {closing : Token} (hc : m.closes closing = true) :
    Tiles origin J r.born m.source.sequence r.items ∧
      ∃ t inner, r.items.getLast? = some (.token t inner) ∧ t.kind = .rparen := by
  unfold Machine.closes at hc
  rw [Bool.and_eq_true] at hc
  obtain ⟨hi, hc⟩ := hc
  obtain ⟨e, htale, -, -, -⟩ := h.idle (by simpa using hi)
  cases hlast : m.lexer.last with
  | none =>
    rw [hlast] at hc
    cases hc
  | some last =>
    rw [hlast] at hc
    simp only [decide_eq_true_eq] at hc
    obtain ⟨-, hkind, -, -, hsequence⟩ := hc
    obtain ⟨heq, t, inner, hitem, htoken⟩ := htale.last last hlast
    refine ⟨?_, t, inner, hitem, htoken.trans hkind⟩
    rw [← hsequence, heq]
    exact htale.items

/-- A closed substitution goes to the word around it. -/
theorem Told.commandEnd {rp : Record} (h : Told origin J m r (rp :: rs))
    (ht : Traced origin J fed n m) {parent : Lexer} {rest : List Lexer}
    (hp : m.parents = parent :: rest) {closing : Token} (hc : m.closes closing = true)
    {frame : Frame} {frames : List Frame} (hframes : parent.frames = frame :: frames)
    (hpop : pop { m with lexer := { parent with command := false }, parents := rest } 0 = .ok m') :
    Told origin J m'
      { rp with pending := rp.pending ++ [.mk frame.fragment r.born n r.items] } rs := by
  have hsequence := ht.sequence h.level.1
  obtain ⟨htiles, hlast⟩ := h.closes hc
  rw [hsequence] at htiles
  have hbehind := h.behind
  rw [hp] at hbehind
  obtain ⟨⟨hactive, hcommand, ⟨e, a, hstart, htale, hle, hgap, hpending⟩, f, hopening, hborn⟩,
    hrest⟩ := hbehind
  obtain ⟨low, hlow, -, hparent⟩ := ht.chain
  rw [hp] at hparent
  obtain ⟨low', hlow', hword, -⟩ := hparent
  have hheld := (hword.held a hstart).2
  obtain ⟨frame', frames', hframes', hget, hkind⟩ := hopening
  rw [hframes] at hframes'
  cases hframes'
  rw [@pop_eq { m with lexer := { parent with command := false }, parents := rest } frame frames hframes]
    at hpop
  have hpop' : m' = onLexer { m with lexer := { parent with command := false }, parents := rest }
      (fun l => { l.finishFragment frame.fragment with frames := l.frames.tail }) := by
    cases hpop
    rfl
  have hcand := hword.candidates
  rw [hframes] at hcand
  have hinner : ∀ other ∈ frames, other.fragment ≠ frame.fragment := by
    intro other hmem
    refine Nat.ne_of_lt ?_
    generalize parent.arithmetic = cs at hcand
    cases hcand with
    | frame _ _ hcand => exact hcand.fragment_lt other hmem
    | candidate _ _ _ _ _ _ _ hcand => exact hcand.fragment_lt other hmem
  have hclose := @Goes.close origin
    { m with lexer := { parent with command := false }, parents := rest } frame frames hframes
  rw [← hpop'] at hclose
  have hlexer : m'.lexer = { parent.finishFragment frame.fragment with
      frames := frames, command := false } := by
    rw [hpop']
    show ({ ({ parent with command := false } : Lexer).finishFragment frame.fragment with
      frames := parent.frames.tail } : Lexer) = _
    rw [hframes]
    rfl
  have htell : Telling origin J ({ parent with command := false } : Lexer) rp :=
    ⟨e, a, hstart, ⟨htale.items, htale.last⟩, hle, hgap, hpending⟩
  refine ⟨hclose.level ⟨h.level.1, ?_⟩, fun _ => ?_, ?_, ?_, ?_⟩
  · intro l hmem c hc
    rcases mem_cons.mp hmem with rfl | hmem
    · exact h.level.2 parent (mem_cons_of_mem _ (hp ▸ mem_cons_self)) c hc
    · exact h.level.2 l (mem_cons_of_mem _ (hp ▸ mem_cons_of_mem _ hmem)) c hc
  · obtain ⟨e, a', hstart', htale', hle', hgap', hpending'⟩ :=
      @Telling.goes origin J { m with lexer := { parent with command := false }, parents := rest }
        m' rp htell hclose
    have ha : a' = a := by
      rw [hlexer] at hstart'
      have hstart'' : startOf origin parent = some a' := hstart'
      rw [hstart] at hstart''
      exact (Option.some.inj hstart'').symm
    subst ha
    refine ⟨e, a', hstart', ⟨htale'.items, htale'.last⟩, hle', hgap', ?_⟩
    intro s hs
    rcases mem_append.mp hs with hs | hs
    · exact hpending' s hs
    · cases mem_singleton.mp hs
      refine ⟨⟨⟨{ f with stop := parent.raw.length, finish := parent.spellingPosition }, ?_, hkind,
        hborn a' hstart, ?_⟩, hlast⟩, htiles, ?_⟩
      · rw [hlexer]
        show (parent.fragments.modify frame.fragment _)[frame.fragment]? = _
        rw [getElem?_modify_eq, hget]
        rfl
      · show n = a' + parent.raw.length
        exact (hheld.add_length ht.tape.le_input).symm
      · rw [hlexer]
        exact hinner
  · intro hi
    rw [hlexer] at hi
    have hi' : parent.active = false := hi
    rw [hactive] at hi'
    cases hi'
  · intro hcommand
    rw [hlexer] at hcommand
    cases hcommand
  · rw [hpop']
    exact hrest

variable (origin J) in
/-- What `csh_lexer_skip_raw` leaves of the ledger, `n` bytes into the input. -/
def SkipTold (r : Record) (rs : List Record) (n length : ℕ) : Bool × Machine → Prop
  | (true, m) =>
    Told origin J m { r with items := r.items ++ [.skipped n (n + length)] } rs
  | (false, m) => Told origin J m r rs ∨ Dead m

theorem Traced.command_idle (h : Traced origin J fed n m) (hi : m.lexer.active = false) :
    m.lexer.command = false := by
  obtain ⟨low, -, hword, -⟩ := h.chain
  by_contra hc
  obtain ⟨frame, frames, hframes, -⟩ := inFrame_iff.mp (hword.command (by simpa using hc))
  rw [(hword.idle hi).2.2.1] at hframes
  cases hframes

/-- Raw bytes are skipped between two tokens. -/
theorem Told.raw (h : Told origin J m r rs) (ht : Traced origin J fed n m)
    (hf : m.source.failure = none) (hi : m.lexer.active = false) (hq : m.lexer.comment = false)
    (hl : m.lexer.last = none) {length : ℕ} (hc : m.consume length = .ok m') :
    Told origin J m' { r with items := r.items ++ [.skipped n (n + length)] } rs := by
  obtain ⟨e, htale, hle, hpending, hbetween⟩ := h.idle hi
  have hgoes : Goes origin m m' := by
    have hkeep := consume_goes origin m length
    rwa [hc] at hkeep
  obtain ⟨ht', hlexer, -, -⟩ := consume_idle ht h.level.1 hi hc
  have hsequence := ht.sequence h.level.1
  have hsequence' := ht'.sequence (hgoes.level h.level).1
  have hgap : Gap (J.extract e n) := by
    have hbefore := hbetween hf
    rw [hsequence, hq] at hbefore
    exact hbefore.gap
  refine ⟨hgoes.level h.level, ?_, fun _ => ⟨n + length, ⟨?_, ?_⟩, ?_, hpending, fun _ => ?_⟩, ?_,
    h.behind.suspends hgoes.parents⟩
  · rw [hlexer, hi]
    intro hactive
    cases hactive
  · exact .snoc htale.items (hsequence ▸ hle) hgap (.skipped (Nat.le_add_right _ _))
  · rw [hlexer, hl]
    intro last hlast
    cases hlast
  · exact Nat.le_of_eq hsequence'.symm
  · rw [hsequence', extract_self, hlexer, hq]
    exact .inl .nil
  · rw [hlexer]
    exact h.opening

theorem skipRaw_told (h : Told origin J m r rs) (ht : Traced origin J fed n m)
    (depth length : ℕ) : SkipTold origin J r rs n length (m.skipRaw depth length) := by
  unfold skipRaw
  split
  · exact .inl h
  · rename_i hfailure
    split
    · exact h.failAt _ _ _ _
    · rename_i hguard
      rw [not_or, not_or, not_or] at hguard
      obtain ⟨-, hi, hcomment, -⟩ := hguard
      have hi : m.lexer.active = false := by simpa using hi
      have hcomment : m.lexer.comment = false := by simpa using hcomment
      have hnone : m.source.failure = none := by simpa using hfailure
      have hlast : Told origin J (m.onLexer fun l => { l with last := none }) r rs :=
        h.onIdle hi _ hi (ht.command_idle hi) (fun c hc => hc) (fun last hl => by cases hl)
          fun _ hb => hb
      have htraced : Traced origin J fed n (m.onLexer fun l => { l with last := none }) :=
        ht.onLexer rfl fun _ hword =>
          hword.congr rfl hword.operator hword.command hword.comment
      cases hconsume : (m.onLexer fun l => { l with last := none }).consume length with
      | error m' => exact hlast.stops hi hconsume
      | ok m' =>
        exact hlast.raw htraced hnone hi hcomment rfl hconsume

/-! ### Runs -/

/-- The entries of every lexer tile the input. -/
theorem Told.tiles (h : Told origin J m r rs) :
    ∀ r' ∈ r :: rs, ∃ e, Tiles origin J r'.born e r'.items := by
  have hbehind : ∀ {born : ℕ} {ls : List Lexer} {rs : List Record},
      Behind origin J born ls rs → ∀ r' ∈ rs, ∃ e, Tiles origin J r'.born e r'.items := by
    intro born ls rs h
    induction ls generalizing born rs with
    | nil =>
      cases rs with
      | nil => simp
      | cons r rs => exact h.elim
    | cons l ls ih =>
      cases rs with
      | nil => exact h.elim
      | cons r rs =>
        intro r' hmem
        rcases mem_cons.mp hmem with rfl | hmem
        · obtain ⟨⟨-, -, ⟨e, a, -, htale, -⟩, -⟩, -⟩ := h
          exact ⟨e, htale.items⟩
        · exact ih h.2 r' hmem
  intro r' hmem
  rcases mem_cons.mp hmem with rfl | hmem
  · cases hi : m.lexer.active with
    | true =>
      obtain ⟨e, a, -, htale, -⟩ := h.active hi
      exact ⟨e, htale.items⟩
    | false =>
      obtain ⟨e, htale, -⟩ := h.idle hi
      exact ⟨e, htale.items⟩
  · exact hbehind h.behind r' hmem

/-- A call that substitutes an alias. -/
def Call.substitutes : Call → Bool
  | .aliasPush _ _ _ _ => true
  | _ => false

/-- The ledger of a session over the input `J`. -/
inductive Session.Kept (J : Bytes) (s : Session) : Prop
  | live (r : Record) (rs : List Record) (hr : s.records = r :: rs)
      (ht : Tracks s.origin J s.fed s.machine) (h : Told s.origin J s.machine r rs)
  | dead (hd : Dead s.machine) (h : ∀ r ∈ s.records, ∃ e, Tiles s.origin J r.born e r.items)

namespace Session

variable {s : Session}

/-- A machine that ends a call with its ledger as it was. -/
theorem Kept.machine {r : Record} {rs : List Record} (hr : s.records = r :: rs)
    (h : Told s.origin J s.machine r rs) (ht : Tracks s.origin J s.fed m ∨ Dead m)
    (h' : Told s.origin J m r rs ∨ Dead m) : Kept J { s with machine := m } := by
  rcases h' with h' | hdead
  · rcases ht with ht | hdead
    · exact .live r rs hr ht h'
    · refine .dead hdead ?_
      rw [hr]
      exact h'.tiles
  · refine .dead hdead ?_
    rw [hr]
    exact h.tiles

theorem followsRedirection_eq (m : Machine) :
    (m.followsRedirection d).2 = (m.peek d 0).2 := by
  unfold followsRedirection
  generalize m.peek d 0 = answer
  obtain ⟨look, m⟩ := answer
  cases look <;> rfl

/-- Nothing happens in a machine that gave up. -/
theorem perform_dead (hd : Dead s.machine) (call : Call) :
    ∃ m, s.perform d call = { s with machine := m } ∧ Dead m := by
  have hf := hd.1
  cases call with
  | feed bytes final =>
    have heq : s.machine.feed bytes final = (false, s.machine) := by
      unfold Machine.feed
      rw [if_pos hf]
    rw [perform, heq]
    exact ⟨_, rfl, hd⟩
  | next depth =>
    have heq : s.machine.lexerNext d depth = (.error, s.machine) := by
      unfold lexerNext
      rw [if_pos hf]
    rw [perform, heq]
    exact ⟨_, rfl, hd⟩
  | commandBegin depth =>
    have heq : s.machine.commandBegin depth = (false, s.machine) := by
      unfold Machine.commandBegin
      rw [if_pos hf]
    rw [perform, heq]
    exact ⟨_, rfl, hd⟩
  | commandEnd depth closing =>
    have heq : s.machine.commandEnd depth closing = (false, s.machine) := by
      unfold Machine.commandEnd
      rw [if_pos hf]
    rw [perform, heq]
    exact ⟨_, rfl, hd⟩
  | replay depth error =>
    have heq : s.machine.replayArithmetic depth error = (.refused, s.machine) := by
      unfold replayArithmetic
      dsimp only
      rw [hd.lexerAt depth]
    rw [perform, heq]
    exact ⟨_, rfl, hd⟩
  | aliasPush depth token name value =>
    have heq : s.machine.aliasPush depth token name value = (false, s.machine) := by
      unfold aliasPush
      rw [if_pos hf]
    rw [perform, heq]
    exact ⟨_, rfl, hd⟩
  | skipRaw depth length =>
    have heq : s.machine.skipRaw depth length = (false, s.machine) := by
      unfold skipRaw
      rw [if_pos hf]
    rw [perform, heq]
    exact ⟨_, rfl, hd⟩
  | followsRedirection =>
    refine ⟨_, rfl, ?_⟩
    obtain ⟨c, heq⟩ := peek_eq (d := d) s.machine 0
    rw [followsRedirection_eq, heq]
    exact hd

theorem consumed_eq (h : Traced s.origin J s.fed n s.machine)
    (hp : Plain s.origin s.machine.source) : s.consumed = n := by
  unfold consumed
  rw [h.position hp.1, posAt_offset h.tape.le_input]
  omega

section Live

variable {r : Record} {rs : List Record}

theorem Kept.next (hr : s.records = r :: rs) (ht : Tracks s.origin J s.fed s.machine)
    (h : Told s.origin J s.machine r rs) (depth : ℕ) : Kept J (s.perform d (.next depth)) := by
  have hok := lexerNext_ok (d := d) ht depth
  have htold := lexerNext_told (d := d) h ht depth
  rw [perform]
  generalize s.machine.lexerNext d depth = answer at hok htold ⊢
  obtain ⟨result, m⟩ := answer
  cases result with
  | error => exact .machine hr h hok htold
  | eof => exact .live r rs hr hok.1 htold
  | token t => exact .live (r.publish t) rs (by simp only [hr, modifyHead_cons]) hok.1 htold
  | more => exact .live r rs hr hok.1 htold
  | command => exact .live r rs hr hok.1 htold
  | replay =>
    exact .live (r.rewind (m.commandFragment m.depth)) rs (by simp only [hr, modifyHead_cons])
      hok.1 htold

theorem Kept.replay (hr : s.records = r :: rs) (ht : Tracks s.origin J s.fed s.machine)
    (h : Told s.origin J s.machine r rs) (depth : ℕ) (error : Option Failure) :
    Kept J (s.perform d (.replay depth error)) := by
  have hok := replayArithmetic_tracks ht depth error
  have htold := replayArithmetic_told h ht depth error
  rw [perform]
  generalize s.machine.replayArithmetic depth error = answer at hok htold ⊢
  obtain ⟨replay, m⟩ := answer
  cases replay with
  | replayed =>
    obtain ⟨r', rs', hrecords, htold⟩ := htold
    refine .live (r'.rewind (m.commandFragment m.depth)) rs' ?_ hok.1 htold
    simp only [hr, hrecords, modifyHead_cons]
  | refused => exact .machine hr h hok htold
  | failed => exact .machine hr h hok htold

theorem Kept.refuse (hr : s.records = r :: rs) (ht : Tracks s.origin J s.fed s.machine)
    (h : Told s.origin J s.machine r rs) (hrefuse : Refuses s.machine m) :
    Kept J { s with machine := m } := by
  refine .machine hr h (hrefuse.tracks ht) ?_
  rcases hrefuse with rfl | ⟨l, message, number, position, rfl⟩
  · exact .inl h
  · exact h.failAt _ _ _ _

theorem Kept.commandBegin (hr : s.records = r :: rs) (ht : Tracks s.origin J s.fed s.machine)
    (h : Told s.origin J s.machine r rs) (depth : ℕ) :
    Kept J (s.perform d (.commandBegin depth)) := by
  rw [perform]
  rcases commandBegin_cases s.machine depth with ⟨m', heq, hrefuse⟩ | ⟨-, -, hc, heq⟩
  · rw [heq]
    exact .refuse hr ht h hrefuse
  · rw [heq]
    obtain ⟨n, htraced⟩ := ht
    refine .live { born := n } (r :: rs) ?_ ⟨n, htraced.commandBegin⟩ (h.commandBegin htraced hc)
    rw [← hr, consumed_eq htraced h.level.1]

/-- Without aliases nothing stands between a substitution and the word around it. -/
theorem cleanAt_nil {source : Source} (h : source.aliases = []) (depth : ℕ) :
    CleanAt source depth := by
  intro a ha
  rw [h] at ha
  cases ha

theorem Kept.commandEnd (hr : s.records = r :: rs) (ht : Tracks s.origin J s.fed s.machine)
    (h : Told s.origin J s.machine r rs) (depth : ℕ) (closing : Token) :
    Kept J (s.perform d (.commandEnd depth closing)) := by
  rw [perform]
  rcases commandEnd_cases s.machine depth closing with
    ⟨m', heq, hrefuse⟩ | ⟨parent, rest, m', -, hp, hdepth, hc, hcloses, hpop, heq⟩
  · rw [heq]
    exact .refuse hr ht h hrefuse
  · rw [heq]
    obtain ⟨n, htraced⟩ := ht
    have hkeep := htraced.commandEnd hp hc (cleanAt_nil h.level.1.1 _)
    rw [hpop] at hkeep
    have hlength : rs.length = rest.length + 1 := by
      rw [← h.depth_eq]
      unfold Machine.depth
      rw [hp, length_cons]
    obtain ⟨rp, rs', rfl⟩ : ∃ rp rs', rs = rp :: rs' := by
      cases rs with
      | nil => cases hlength
      | cons rp rs' => exact ⟨rp, rs', rfl⟩
    obtain ⟨low, hlow, -, hparent⟩ := htraced.chain
    rw [hp] at hparent
    obtain ⟨low', hlow', hword, -⟩ := hparent
    obtain ⟨frame, frames, hframes, -⟩ := inFrame_iff.mp (hword.command hc)
    have hfragment : s.machine.commandFragment depth = some frame.fragment := by
      have hat : s.machine.lexerAt depth = parent := by
        unfold lexerAt Machine.depth Machine.chain
        rw [hp, hdepth, length_cons, Nat.add_sub_cancel_left]
        rfl
      unfold commandFragment
      dsimp only
      rw [hat, if_pos hc, hframes]
      rfl
    refine .live _ rs' ?_ hkeep (h.commandEnd htraced hp hcloses hframes hpop)
    dsimp only
    rw [hr, hfragment, consumed_eq htraced h.level.1]
    rfl

theorem Kept.skipRaw (hr : s.records = r :: rs) (ht : Tracks s.origin J s.fed s.machine)
    (h : Told s.origin J s.machine r rs) (depth length : ℕ) :
    Kept J (s.perform d (.skipRaw depth length)) := by
  obtain ⟨n, htraced⟩ := ht
  have hok := skipRaw_tracks ⟨n, htraced⟩ depth length
  have htold := skipRaw_told h htraced depth length
  rw [perform]
  generalize s.machine.skipRaw depth length = answer at hok htold ⊢
  obtain ⟨success, m⟩ := answer
  cases success with
  | false => exact .machine hr h hok htold
  | true =>
    have htold' : Told s.origin J m _ rs := htold
    rcases hok with ht | hdead
    · refine .live _ rs ?_ ht htold'
      simp only [hr, modifyHead_cons, consumed_eq htraced h.level.1]
    · refine .dead hdead ?_
      simp only [hr, modifyHead_cons, consumed_eq htraced h.level.1]
      exact htold'.tiles

end Live

theorem perform_fed (s : Session) (call : Call) : s.fed <+: (s.perform d call).fed := by
  cases call with
  | feed bytes final =>
    rw [Session.perform]
    split
    · exact prefix_append _ _
    · exact prefix_refl _
  | next depth =>
    rw [Session.perform]
    split <;> exact prefix_refl _
  | commandBegin depth =>
    rw [Session.perform]
    split <;> exact prefix_refl _
  | commandEnd depth closing =>
    rw [Session.perform]
    split <;> exact prefix_refl _
  | replay depth error =>
    rw [Session.perform]
    split <;> exact prefix_refl _
  | aliasPush depth token name value => exact prefix_refl _
  | skipRaw depth length =>
    rw [Session.perform]
    split <;> exact prefix_refl _
  | followsRedirection => exact prefix_refl _

/-- A call that substitutes no alias keeps the ledger. -/
theorem Kept.perform {call : Call} (hc : call.substitutes = false)
    (h : ∀ J, s.fed <+: J → Kept J s) : ∀ J, (s.perform d call).fed <+: J → Kept J (s.perform d call) := by
  intro J hj
  cases h J ((perform_fed s call).trans hj) with
  | dead hd h =>
    obtain ⟨m, heq, hdead⟩ := perform_dead (d := d) hd call
    rw [heq]
    exact .dead hdead h
  | live r rs hr ht h =>
    cases call with
    | feed bytes final =>
      rw [Session.perform] at hj ⊢
      rcases feed_cases s.machine bytes final with ⟨m', heq, hrefuse⟩ | ⟨-, -, heq⟩
      · rw [heq]
        exact .refuse hr ht h hrefuse
      · rw [heq] at hj ⊢
        obtain ⟨n, htraced⟩ := ht
        exact .live r rs hr ⟨n, htraced.feed hj final⟩ (h.feed bytes final)
    | next depth => exact .next hr ht h depth
    | commandBegin depth => exact .commandBegin hr ht h depth
    | commandEnd depth closing => exact .commandEnd hr ht h depth closing
    | replay depth error => exact .replay hr ht h depth error
    | aliasPush depth token name value => cases hc
    | skipRaw depth length => exact .skipRaw hr ht h depth length
    | followsRedirection =>
      obtain ⟨n, htraced⟩ := ht
      have hlook := htraced.look.peek (d := d) 0
      obtain ⟨c, heq⟩ := peek_eq (d := d) s.machine 0
      rw [Session.perform, followsRedirection_eq, heq]
      rw [heq] at hlook
      exact .live r rs hr ⟨n, htraced.onSource rfl rfl rfl rfl hlook⟩
        (h.onSource rfl rfl rfl id fun _ hb => hb)

theorem perform_origin (s : Session) (call : Call) : (s.perform d call).origin = s.origin := by
  cases call <;> rw [Session.perform] <;> split <;> rfl

theorem start_tracks (name : Bytes) (origin : Position) (document : Bool) (J : Bytes) :
    Tracks origin J [] (Machine.create name origin document) := by
  refine ⟨0, ?_, ?_, ⟨?_, trivial⟩, ⟨0, Nat.le_refl _, ?_, trivial⟩, lookOk_none rfl⟩
  · refine ⟨List.nil_prefix, Nat.le_refl _, rfl, rfl, ?_, ?_, Nat.le_refl _⟩
    · exact pairwise_singleton _ _
    · intro a ha
      cases ha
  · intro a ha
    cases ha
  · intro hsome
    cases hsome
  · refine ⟨?_, .nil _ _, fun _ => rfl, ?_, fun _ => ⟨rfl, rfl, rfl, rfl, rfl⟩, fun _ => rfl⟩
    · intro a ha
      cases ha
    · intro hc
      cases hc

theorem Kept.start (name : Bytes) (origin : Position) (document : Bool) (J : Bytes) :
    Kept J (start name origin document) := by
  refine .live { born := 0 } [] rfl (start_tracks name origin document J) ?_
  refine ⟨⟨⟨rfl, rfl⟩, ?_⟩, ?_, fun _ => ?_, ?_, trivial⟩
  · intro l hl c hc
    rcases mem_cons.mp hl with rfl | hl
    · cases hc
    · cases hl
  · intro hi
    cases hi
  · refine ⟨0, ⟨.nil 0, ?_⟩, Nat.le_refl _, rfl, fun _ => ?_⟩
    · intro last hlast
      cases hlast
    · show Between (J.extract 0 0) false []
      rw [extract_self]
      exact .inl .nil
  · intro hc
    cases hc

/-- A run without aliases keeps the ledger. -/
theorem Kept.run {calls : List Call} (hc : ∀ call ∈ calls, call.substitutes = false)
    (h : ∀ J, s.fed <+: J → Kept J s) :
    (s.run d calls).origin = s.origin ∧
      ∀ J, (s.run d calls).fed <+: J → Kept J (s.run d calls) := by
  induction calls generalizing s with
  | nil => exact ⟨rfl, h⟩
  | cons call calls ih =>
    obtain ⟨horigin, hkept⟩ := ih (fun other hmem => hc other (mem_cons_of_mem _ hmem))
      (Kept.perform (d := d) (hc call mem_cons_self) h)
    exact ⟨horigin.trans (perform_origin s call), hkept⟩

end Session

/-- What the pending words of a chain captured. -/
theorem Chain.captures {limit : ℕ} {ls : List Lexer} (h : Chain origin J fed n limit ls) :
    ∀ l ∈ ls, ∀ a, startOf origin l = some a →
      l.start = posAt origin J a ∧ l.raw = J.extract a n ∧ l.spellingPosition = posAt origin J n := by
  induction ls generalizing limit with
  | nil => simp
  | cons l ls ih =>
    obtain ⟨low, -, hword, hrest⟩ := h
    intro l' hmem a ha
    rcases mem_cons.mp hmem with rfl | hmem
    · have hheld := (hword.held a ha).2
      exact ⟨hheld.start, hheld.raw, hheld.spelling⟩
    · exact ih hrest l' hmem a ha

/-- Without aliases every pending word starts in the input. -/
theorem Told.starts (h : Told origin J m r rs) :
    ∀ l ∈ m.chain, l.active = true → ∃ a, startOf origin l = some a := by
  have hbehind : ∀ {born : ℕ} {ls : List Lexer} {rs : List Record},
      Behind origin J born ls rs → ∀ l ∈ ls, ∃ a, startOf origin l = some a := by
    intro born ls rs h
    induction ls generalizing born rs with
    | nil => simp
    | cons l ls ih =>
      cases rs with
      | nil => exact h.elim
      | cons r rs =>
        intro l' hmem
        rcases mem_cons.mp hmem with rfl | hmem
        · obtain ⟨⟨-, -, ⟨e, a, hstart, -⟩, -⟩, -⟩ := h
          exact ⟨a, hstart⟩
        · exact ih h.2 l' hmem
  intro l hmem hi
  rcases mem_cons.mp hmem with rfl | hmem
  · obtain ⟨e, a, hstart, -⟩ := h.active hi
    exact ⟨a, hstart⟩
  · exact hbehind h.behind l hmem

/-- **Lexing is lossless.**  In every run that substitutes no alias, whatever is fed,
read, begun, ended, replayed and skipped, the entries of each lexer tile the bytes
fed: a token is the input between its positions, only a gap lies before it, and it
covers the substitutions it encloses.  Every pending word, of a suspended ancestor
too, has captured the input from its start to what was consumed, no byte less or
twice. -/
theorem lexing_lossless (d : Decoder) (name : Bytes) (origin : Position) (document : Bool)
    (calls : List Call) (hcalls : ∀ call ∈ calls, call.substitutes = false) :
    (∀ r ∈ ((Session.start name origin document).run d calls).records,
      ∃ e, Tiles origin ((Session.start name origin document).run d calls).fed r.born e r.items) ∧
      ∀ l ∈ ((Session.start name origin document).run d calls).machine.chain, l.active = true →
        ∃ a, l.start = posAt origin ((Session.start name origin document).run d calls).fed a ∧
          l.raw = ((Session.start name origin document).run d calls).fed.extract a
            ((Session.start name origin document).run d calls).consumed ∧
          l.spellingPosition = posAt origin ((Session.start name origin document).run d calls).fed
            ((Session.start name origin document).run d calls).consumed := by
  obtain ⟨horigin, hkept⟩ := Session.Kept.run (d := d) hcalls
    fun J _ => Session.Kept.start name origin document J
  generalize (Session.start name origin document).run d calls = s at horigin hkept ⊢
  have horigin' : s.origin = origin := horigin
  subst horigin'
  cases hkept s.fed (prefix_refl _) with
  | dead hd h =>
    refine ⟨h, ?_⟩
    intro l hmem hi
    rw [(hd.2 l hmem).1] at hi
    cases hi
  | live r rs hr ht h =>
    refine ⟨by rw [hr]; exact h.tiles, ?_⟩
    intro l hmem hi
    obtain ⟨n, htraced⟩ := ht
    obtain ⟨a, hstart⟩ := h.starts l hmem hi
    rw [Session.consumed_eq htraced h.level.1]
    exact ⟨a, htraced.chain.captures l hmem a hstart⟩

/-- In `a $((b;c))` the semicolon turns the candidate into a substitution; the word
around it has captured the opening once. -/
theorem lexing_lossless_replayed :
    (((Session.start [] {} false).run .posix
      [.feed (ascii "a $((b;c))") true, .next 0, .next 0, .next 0, .commandBegin 0, .next 1,
        .next 1]).machine.parents.map Lexer.raw = [ascii "$((b"] ∧
    ∀ r ∈ ((Session.start [] {} false).run .posix
      [.feed (ascii "a $((b;c))") true, .next 0, .next 0, .next 0, .commandBegin 0, .next 1,
        .next 1]).records,
      ∃ e, Tiles {} ((Session.start [] {} false).run .posix
        [.feed (ascii "a $((b;c))") true, .next 0, .next 0, .next 0, .commandBegin 0, .next 1,
          .next 1]).fed r.born e r.items) :=
  ⟨by decide +kernel, (lexing_lossless .posix [] {} false _ (by decide)).1⟩

end Lexical
end CShell
