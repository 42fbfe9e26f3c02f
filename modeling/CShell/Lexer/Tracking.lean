import CShell.Lexer.Words

/-!
# The scanner stays in the input

Every round of `next_token` keeps a machine in the input, and a token that
started outside every alias holds the input bytes between its positions.

## Main definitions

* `TokenAt origin J a b t` — the token `t` is the input from `a` to `b`.
* `Scanning` — a machine in the middle of `next_token`.

## Main results

* `scanLoop_tracks`, `lexerNext_tracks` — the scanner.
* `replayArithmetic_tracks`, `commandEnd_tracks`, `aliasPush_tracks` — the rest of
  the interface.
-/

namespace CShell
namespace Lexical

open Machine List

variable (origin : Position) (J : Bytes)

/-- A token that is the input from `a` to `b`, with its fragments. -/
structure TokenAt (a b : ℕ) (t : Token) : Prop where
  le : a ≤ b
  le_input : b ≤ J.length
  start : t.start = posAt origin J a
  stop : t.stop = posAt origin J b
  raw : t.raw = J.extract a b
  fragments : ∀ f ∈ t.fragments, FragmentAt origin J a b f

/-- A machine in the middle of `next_token`. -/
structure Scanning (fed : Bytes) (m : Machine) : Prop where
  tracks : Tracks origin J fed m
  failure : m.source.failure = none
  command : m.lexer.command = false

variable {origin J} {fed : Bytes} {n : ℕ} {m : Machine} {d : Decoder}

/-! ### Readying a machine -/

theorem Word.onFrame {low limit : ℕ} {starts : List (Option ℕ)} {l : Lexer}
    (h : Word origin J fed n low limit starts l) (f : Frame → Frame)
    (hf : ∀ x, (f x).kind = x.kind ∧ (f x).fragment = x.fragment) :
    Word origin J fed n low limit starts (l.onFrame f) := by
  unfold Lexer.onFrame
  split
  · exact h
  · rename_i frame frames hframes
    refine ⟨?_, ?_, ?_, ?_, ?_, h.comment⟩
    · intro a ha
      exact ⟨(h.held a ha).1, (h.held a ha).2.congr rfl rfl rfl rfl⟩
    · have hcand := h.candidates
      rw [hframes] at hcand
      exact hcand.onFrame (hf _).1 (hf _).2
    · intro hk
      have := h.operator hk
      rw [hframes] at this
      cases this
    · intro hc
      obtain ⟨top, rest, heq, hk⟩ := inFrame_iff.mp (h.command hc)
      rw [hframes] at heq
      cases heq
      exact inFrame_iff.mpr ⟨_, _, rfl, (hf _).1.trans hk⟩
    · intro hi
      have := (h.idle hi).2.2.1
      rw [hframes] at this
      cases this

theorem startOf_onFrame (l : Lexer) (f : Frame → Frame) :
    startOf origin (l.onFrame f) = startOf origin l := by
  obtain ⟨frames, heq⟩ := onFrame_eq l f
  rw [heq]
  rfl

/-- The lexer of a token that has just been started. -/
theorem startToken_lexer (m : Machine) :
    m.startToken.lexer.start = m.source.position ∧
      m.startToken.lexer.spellingPosition = m.source.position ∧
      m.startToken.lexer.raw = m.lexer.raw ∧
      m.startToken.lexer.fragments = m.lexer.fragments ∧
      m.startToken.lexer.frames = m.lexer.frames ∧
      m.startToken.lexer.arithmetic = m.lexer.arithmetic ∧
      m.startToken.lexer.command = m.lexer.command ∧
      m.startToken.lexer.comment = m.lexer.comment ∧
      m.startToken.lexer.aliasName = match m.source.aliases with
        | [] => m.lexer.aliasName
        | top :: _ => some top.name := by
  unfold startToken
  dsimp only
  cases m.source.aliases with
  | nil => exact ⟨rfl, rfl, rfl, rfl, rfl, rfl, rfl, rfl, rfl⟩
  | cons top rest => exact ⟨rfl, rfl, rfl, rfl, rfl, rfl, rfl, rfl, rfl⟩

theorem posAt_offset {n : ℕ} (hn : n ≤ J.length) :
    (posAt origin J n).offset = origin.offset + n := by
  induction n with
  | zero => rfl
  | succ n ih =>
    have hlt : n < J.length := hn
    rw [posAt_succ (getElem?_eq_getElem hlt)]
    have hoffset : ∀ (p : Position) (byte : UInt8), (p.advance byte).offset = p.offset + 1 := by
      intro p byte
      unfold Position.advance
      split <;> rfl
    rw [hoffset, ih hlt.le]
    rfl

/-- A token starts between tokens; `f` sets its kind. -/
theorem Traced.start (h : Traced origin J fed n m) (hi : m.lexer.active = false)
    (hq : m.lexer.comment = false) {f : Lexer → Lexer}
    (hf : ∀ l, ∃ kind text, f l = { l with kind := kind, operatorText := text }) :
    Traced origin J fed n (m.startToken.onLexer f) := by
  have hn := h.tape.le_input
  obtain ⟨low, hlow, hword, hrest⟩ := h.chain
  obtain ⟨hraw, hfragments, hframes, harithmetic, halias⟩ := hword.idle hi
  obtain ⟨l, heq, hactive⟩ := startToken_eq m
  obtain ⟨hstart, hspelling, hraw', hfragments', hframes', harithmetic', hcommand', hcomment',
    halias'⟩ := startToken_lexer m
  obtain ⟨kind, text, hset⟩ := hf m.startToken.lexer
  have hsource : m.startToken.source = { m.source with aliasEligible := false } := by rw [heq]
  have hparents : m.startToken.parents = m.parents := by rw [heq]
  have hact : m.startToken.lexer.active = true := by rw [heq]; exact hactive
  have hcmd : m.lexer.command = false := by
    by_contra hc
    obtain ⟨_, _, hfr, -⟩ := inFrame_iff.mp (hword.command (by simpa using hc))
    rw [hframes] at hfr
    cases hfr
  -- The word starts in the input exactly when no alias is being read.
  have hstartOf : startOf origin (f m.startToken.lexer) =
      if m.source.aliases = [] then some n else none := by
    have hpos : m.source.aliases = [] → m.source.position = posAt origin J n := by
      intro ha
      rw [← h.tape.position]
      simp [Source.physicalPosition, ha]
    rw [hset]
    unfold startOf
    rw [show ({ m.startToken.lexer with kind := kind, operatorText := text } : Lexer).aliasName =
      m.startToken.lexer.aliasName from rfl, halias']
    cases ha : m.source.aliases with
    | nil =>
      simp only [halias, hact, hstart, hpos ha, posAt_offset hn, and_self, if_true]
      congr 1
      omega
    | cons top rest => simp
  refine ⟨?_, ?_, ?_, ⟨low, hlow, ?_, ?_⟩, ?_⟩
  · show OnTape origin J fed n m.startToken.source
    rw [hsource]
    exact h.tape.congr rfl rfl rfl rfl
  · show ∀ a ∈ m.startToken.source.aliases, a.ownerDepth ≤ m.startToken.parents.length
    rw [hsource, hparents]
    exact h.owners
  · show Shielded m.startToken.source.aliases
      (startOf origin (f m.startToken.lexer) :: m.startToken.parents.map (startOf origin))
    rw [hsource, hparents, hstartOf]
    refine ⟨?_, h.shielded.2⟩
    intro hsome a ha
    split at hsome
    · rename_i hnil
      rw [show ({ m.source with aliasEligible := false } : Source).aliases = m.source.aliases
        from rfl, hnil] at ha
      cases ha
    · cases hsome
  · show Word origin J fed n low n (m.startToken.parents.map (startOf origin)) (f m.startToken.lexer)
    rw [hparents]
    refine ⟨?_, ?_, ?_, ?_, ?_, ?_⟩
    · intro a ha
      rw [hstartOf] at ha
      split at ha
      · rename_i hnil
        cases ha
        have hpos : m.source.position = posAt origin J n := by
          rw [← h.tape.position]
          simp [Source.physicalPosition, hnil]
        rw [hset]
        refine ⟨hlow, hstart.trans hpos, Nat.le_refl _, Nat.le_refl _, ?_, hspelling.trans hpos, ?_⟩
        · show m.startToken.lexer.raw = _
          rw [hraw', hraw, extract_self]
        · intro g hg
          have hg' : g ∈ m.startToken.lexer.fragments := hg
          rw [hfragments', hfragments] at hg'
          cases hg'
      · cases ha
    · have hfr : (f m.startToken.lexer).frames = [] := by
        rw [hset]
        exact hframes'.trans hframes
      have har : (f m.startToken.lexer).arithmetic = [] := by
        rw [hset]
        exact harithmetic'.trans harithmetic
      rw [hfr, har]
      exact .nil _ _
    · intro _
      rw [hset]
      exact hframes'.trans hframes
    · intro hc
      rw [hset] at hc
      have hc' : m.startToken.lexer.command = true := hc
      rw [hcommand', hcmd] at hc'
      cases hc'
    · intro hi'
      rw [hset] at hi'
      have hi'' : m.startToken.lexer.active = false := hi'
      rw [hact] at hi''
      cases hi''
    · intro hq'
      rw [hset] at hq'
      have hq'' : m.startToken.lexer.comment = true := hq'
      rw [hcomment', hq] at hq''
      cases hq''
  · show Chain origin J fed n low m.startToken.parents
    rw [hparents]
    exact hrest
  · show LookOk m.startToken.source
    rw [hsource]
    exact h.look

/-- Making a machine ready keeps it in the input. -/
theorem Readies.scanning {m₁ : Machine} (hr : Readies d m m₁) (h : Scanning origin J fed m) :
    Scanning origin J fed m₁ := by
  induction hr with
  | refl => exact h
  | @look m₁ wanted _ ih =>
    obtain ⟨c, heq⟩ := peek_eq (d := d) m₁ wanted
    obtain ⟨n, htraced⟩ := ih.tracks
    have hlook := htraced.look.peek (d := d) wanted
    rw [heq] at hlook ⊢
    exact ⟨⟨n, htraced.onSource rfl rfl rfl rfl hlook⟩, ih.failure, ih.command⟩
  | clear _ _ ih =>
    refine ⟨onLexer_tracks ih.tracks rfl ?_, ih.failure, ih.command⟩
    intro n low starts _ _ hword
    exact hword.congr rfl hword.operator hword.command (fun hq => by cases hq)
  | @frame m₁ f hf _ ih =>
    refine ⟨onLexer_tracks ih.tracks (startOf_onFrame _ _) ?_, ih.failure, ?_⟩
    · intro n low starts _ _ hword
      exact hword.onFrame f hf
    · obtain ⟨frames, heq⟩ := onFrame_eq m₁.lexer f
      show (m₁.lexer.onFrame f).command = false
      rw [heq]
      exact ih.command
  | @start m₁ hi hc _ ih =>
    obtain ⟨n, htraced⟩ := ih.tracks
    refine ⟨⟨n, htraced.start hi hc fun l => ⟨.word, l.operatorText, rfl⟩⟩, ih.failure, ?_⟩
    show m₁.startToken.lexer.command = false
    rw [(startToken_lexer m₁).2.2.2.2.2.2.1]
    exact ih.command

/-! ### The ends of a round -/

variable (origin J)

/-- What a round leaves. -/
def StepOk (fed : Bytes) : Step → Prop
  | .again m => Scanning origin J fed m
  | .done .error m => Tracks origin J fed m ∨ Dead m
  | .done (.token t) m =>
    Tracks origin J fed m ∧ m.source.failure = none ∧
      (t.aliasName = none → ∃ a b, TokenAt origin J a b t)
  | .done _ m => Tracks origin J fed m ∧ m.source.failure = none

variable {origin J}

theorem Scanning.frames (h : Scanning origin J fed m) :
    m.lexer.active = false → m.lexer.frames = [] := by
  intro hi
  obtain ⟨n, htraced⟩ := h.tracks
  obtain ⟨low, -, hword, -⟩ := htraced.chain
  exact (hword.idle hi).2.2.1

theorem Scanning.comment (h : Scanning origin J fed m) :
    m.lexer.comment = true → m.lexer.active = false := by
  obtain ⟨n, htraced⟩ := h.tracks
  obtain ⟨low, -, hword, -⟩ := htraced.chain
  exact hword.comment

/-- The bytes that open a command substitution. -/
theorem Scanning.opening (h : Scanning origin J fed m) {m₁ : Machine} (hr : Readies d m m₁)
    {rest : Bytes} (hb : m₁.source.unread = byteOf '$' :: rest) {count : ℕ}
    (hp : Peeked d m 1 (byteOf '(') count) :
    Ahead m₁.source.unread [byteOf '$', byteOf '('] count := by
  obtain ⟨n, htraced⟩ := h.tracks
  rw [hr.unread] at hb ⊢
  exact hp.ahead₁ htraced.look hb (by decide) (by decide) (by decide)

theorem Scanning.operator (h : Scanning origin J fed m) :
    m.lexer.kind ≠ .word → m.lexer.frames = [] := by
  obtain ⟨n, htraced⟩ := h.tracks
  obtain ⟨low, -, hword, -⟩ := htraced.chain
  exact hword.operator

/-- A helper of the scanner that kept the machine in the input. -/
theorem StepOk.attempt {r : Except Machine Machine} (h : Keeps (Tracks origin J fed) r)
    (hok : ∀ m', r = .ok m' → m'.source.failure = none ∧ m'.lexer.command = false) :
    StepOk origin J fed (.attempt r) := by
  cases r with
  | error m => exact h
  | ok m' => exact ⟨h, (hok m' rfl).1, (hok m' rfl).2⟩

section

variable (h : Scanning origin J fed m)
include h

theorem Scanning.reads {r : Except Machine Machine} (hr : ∀ m', r = .ok m' → Reads m m') :
    ∀ m', r = .ok m' → m'.source.failure = none ∧ m'.lexer.command = false := by
  intro m' heq
  have hreads := hr m' heq
  exact ⟨hreads.failure.trans h.failure, hreads.command.trans h.command⟩

theorem publish_ok (hi : m.lexer.active = true)
    (hf : m.lexer.frames = []) : StepOk origin J fed m.publish := by
  obtain ⟨n, htraced⟩ := h.tracks
  have hn := htraced.tape.le_input
  obtain ⟨low, hlow, hword, hrest⟩ := htraced.chain
  have ha : m.lexer.arithmetic = [] := by
    have hcand := hword.candidates
    rw [hf] at hcand
    generalize hcs : m.lexer.arithmetic = cs at hcand
    cases hcand with
    | nil => rfl
  refine ⟨⟨n, htraced.tape, htraced.owners, ?_, ⟨low, hlow, ?_, hrest⟩, htraced.look⟩, h.failure, ?_⟩
  · refine ⟨?_, htraced.shielded.2⟩
    intro hsome
    cases hsome
  · refine ⟨?_, ?_, fun _ => hf, ?_, fun _ => ⟨rfl, rfl, hf, ha, rfl⟩, fun _ => rfl⟩
    · intro a hstart
      cases hstart
    · rw [show (onLexer m _).lexer.frames = m.lexer.frames from rfl, hf,
        show (onLexer m _).lexer.arithmetic = m.lexer.arithmetic from rfl, ha]
      exact .nil _ _
    · intro hc
      have hc' : m.lexer.command = true := hc
      rw [h.command] at hc'
      cases hc'
  · intro halias
    have hstart : startOf origin m.lexer = some (m.lexer.start.offset - origin.offset) := by
      unfold startOf
      rw [if_pos ⟨hi, halias⟩]
    have hheld := (hword.held _ hstart).2
    exact ⟨_, n, hheld.start_le, hn, hheld.start, hheld.spelling, hheld.raw, hheld.fragments⟩

theorem giveUp_ok : StepOk origin J fed m.giveUp := by
  have hreplay := replayArithmetic_tracks h.tracks m.depth none
  unfold giveUp
  generalize m.replayArithmetic m.depth none = answer at hreplay
  obtain ⟨replay, m₁⟩ := answer
  cases replay with
  | replayed => exact hreplay
  | refused => exact hreplay
  | failed => exact hreplay

theorem pushParameter_ok (hi : m.lexer.active = true)
    (hw : m.lexer.kind = .word) (quote : Quote) (count : ℕ) :
    StepOk origin J fed (m.pushParameter quote count) := by
  have hkeep := @push_tracks _ _ _ _ h.tracks hi hw h.command .simple (by decide) .parameter quote
    count
  unfold pushParameter
  split
  · rename_i hpush
    rw [hpush] at hkeep
    exact hkeep
  · rename_i m₁ hpush
    rw [hpush] at hkeep
    have hreads := push_reads hpush
    have hcommand : m₁.lexer.command = false := hreads.command.trans h.command
    have hsimple : FrameKind.simple ≠ .arithmetic := by decide
    refine .attempt (pop_tracks hkeep (hreads.active.trans hi) hcommand hreads.frames hsimple 0) ?_
    intro m' hpop
    obtain ⟨hfailure, hc, -⟩ := pop_reads hreads.frames hpop
    exact ⟨(hfailure.trans hreads.failure).trans h.failure, hc.trans hcommand⟩

end

theorem pushArithmetic_ok (h : Scanning origin J fed m) (hi : m.lexer.active = true)
    (hw : m.lexer.kind = .word) (quote : Quote) {second : ℕ}
    (ho : Ahead m.source.unread [byteOf '$', byteOf '('] second) (third : ℕ) :
    StepOk origin J fed (m.pushArithmetic quote second third) := by
  obtain ⟨n, htraced⟩ := h.tracks
  have hopen := htraced.openCandidate h.failure hi hw h.command ho quote
  have hkeep := delimiter_tracks ⟨n, hopen⟩ hi quote third
  unfold pushArithmetic
  rw [push_eq]
  split
  · rename_i hdelimiter
    rw [hdelimiter] at hkeep
    exact hkeep
  · rename_i m₁ hdelimiter
    rw [hdelimiter] at hkeep
    have hreads := delimiter_reads hdelimiter
    refine ⟨onLexer_tracks hkeep rfl ?_, hreads.failure.trans h.failure,
      hreads.command.trans h.command⟩
    intro n low starts _ _ hword
    -- Where the body begins is not part of what a checkpoint restores.
    have hcand := hword.candidates
    refine ⟨?_, ?_, hword.operator, hword.command, ?_, hword.comment⟩
    · intro a ha
      exact ⟨(hword.held a ha).1, (hword.held a ha).2.congr rfl rfl rfl rfl⟩
    · rw [hreads.frames] at hcand
      obtain ⟨c, cs, k, heq, hlt, hcount, hframes, hs, hlow, hle, hrest⟩ := hcand.checkpoint rfl
      show Candidates origin J fed _ m₁.lexer.fragments low m₁.lexer.frames
        (m₁.lexer.arithmetic.modifyHead _) _ _
      rw [hreads.frames, heq]
      exact .candidate rfl hlt hcount hframes
        ⟨hs.tape, hs.failure, hs.owners, hs.shielded, hs.captures, hs.fragments, hs.look, hs.opening⟩
        hlow hle hrest
    · intro hi'
      have hi'' : m₁.lexer.active = false := hi'
      rw [hreads.active.trans hi] at hi''
      cases hi''

section

variable (h : Scanning origin J fed m)
include h

theorem popArithmetic_ok {c : Checkpoint}
    {previous : List Checkpoint} (hf : m.lexer.inFrame .arithmetic = true)
    (ha : m.lexer.arithmetic = c :: previous) (count : ℕ) :
    StepOk origin J fed (m.popArithmetic previous count) := by
  obtain ⟨frame, frames, hframes, hk⟩ := inFrame_iff.mp hf
  have hi : m.lexer.active = true := by
    by_contra hi
    rw [h.frames (by simpa using hi)] at hframes
    cases hframes
  have hkeep := delimiter_tracks h.tracks hi frame.quote count
  unfold popArithmetic
  rw [pop_eq hframes]
  cases hdelimiter : m.delimiter frame.quote count with
  | error m₁ =>
    rw [hdelimiter] at hkeep
    exact hkeep
  | ok m₁ =>
    rw [hdelimiter] at hkeep
    have hreads := delimiter_reads hdelimiter
    have hf₁ : m₁.lexer.frames = frame :: frames := hreads.frames.trans hframes
    have ha₁ : m₁.lexer.arithmetic = c :: previous := hreads.arithmetic.trans ha
    have hc₁ : m₁.lexer.command = false := hreads.command.trans h.command
    refine ⟨?_, hreads.failure.trans h.failure, hc₁⟩
    refine @onLexer_tracks origin J fed m₁
      (fun l => { l.finishFragment frame.fragment with
        frames := l.frames.tail, arithmetic := previous }) hkeep rfl ?_
    intro n low starts hn _ hword
    dsimp only
    rw [hf₁, tail_cons]
    exact hword.popCandidate hn (hreads.active.trans hi) hc₁ hf₁ hk ha₁

theorem commandOpening_ok (hi : m.lexer.active = true)
    (hw : m.lexer.kind = .word) (quote : Quote) (count : ℕ) :
    StepOk origin J fed (dollar.commandOpening quote m count) := by
  have hkeep := @push_tracks _ _ _ _ h.tracks hi hw h.command .command (by decide) .command quote
    count
  unfold dollar.commandOpening
  split
  · rename_i hpush
    rw [hpush] at hkeep
    exact hkeep
  · rename_i m₁ hpush
    rw [hpush] at hkeep
    have hreads := push_reads hpush
    refine ⟨onLexer_tracks hkeep rfl ?_, hreads.failure.trans h.failure⟩
    intro n low starts _ _ hword
    exact hword.congr rfl hword.operator (fun _ => inFrame_iff.mpr ⟨_, _, hreads.frames, rfl⟩)
      hword.comment

theorem newlineToken_ok (hi : m.lexer.active = false)
    (hq : m.lexer.comment = false) : StepOk origin J fed m.newlineToken := by
  obtain ⟨n, htraced⟩ := h.tracks
  have hstart : Tracks origin J fed (m.startToken.onLexer fun l => { l with kind := .newline }) :=
    ⟨n, htraced.start hi hq fun l => ⟨.newline, l.operatorText, rfl⟩⟩
  have hkeep := consume_tracks hstart 1
  obtain ⟨-, -, -, -, hframes, -, hcommand, -, -⟩ := startToken_lexer m
  unfold newlineToken
  split
  · rename_i hconsume
    rw [hconsume] at hkeep
    exact hkeep
  · rename_i m₁ hconsume
    rw [hconsume] at hkeep
    have hreads := consume_reads hconsume
    have hactive : m₁.lexer.active = true := by
      rw [hreads.active]
      obtain ⟨l, heq, hl⟩ := startToken_eq m
      show m.startToken.lexer.active = true
      rw [heq]
      exact hl
    refine publish_ok ⟨hkeep, hreads.failure.trans h.failure, ?_⟩ hactive ?_
    · exact hreads.command.trans (hcommand.trans h.command)
    · exact hreads.frames.trans (hframes.trans (h.frames hi))

theorem startOperator_ok (hi : m.lexer.active = false)
    (hq : m.lexer.comment = false) (byte : UInt8) (kind : Lexer → TokenKind) :
    StepOk origin J fed (m.startOperator byte kind) := by
  obtain ⟨n, htraced⟩ := h.tracks
  have hstart : Tracks origin J fed (m.startToken.onLexer fun l =>
      { l with operatorText := [byte], kind := kind l }) :=
    ⟨n, htraced.start hi hq fun l => ⟨kind l, [byte], rfl⟩⟩
  refine .attempt (consume_tracks hstart 1) ?_
  intro m' hconsume
  have hreads := consume_reads hconsume
  exact ⟨hreads.failure.trans h.failure,
    hreads.command.trans ((startToken_lexer m).2.2.2.2.2.2.1.trans h.command)⟩

/-- A round in an operator. -/
theorem operatorRound_ok (hi : m.lexer.active = true)
    (hk : m.lexer.kind ≠ .word) {s : Step} (hround : OperatorRound d m s) :
    StepOk origin J fed s := by
  have hframes := h.operator hk
  cases hround with
  | more hr =>
    have h₁ := hr.scanning h
    exact ⟨h₁.tracks, h₁.failure⟩
  | publish hr hl =>
    have h₁ := hr.scanning h
    exact publish_ok h₁ (by rw [hl, hi]) (by rw [hl, hframes])
  | @extend m₁ hr hl byte count hp kind hx ho =>
    have h₁ := hr.scanning h
    have hset : Tracks origin J fed (m₁.onLexer fun l => { l with kind }) := by
      refine onLexer_tracks h₁.tracks rfl ?_
      intro n low starts _ _ hword
      exact hword.congr rfl (fun _ => by rw [hl, hframes]) hword.command hword.comment
    have hi₁ : m₁.lexer.active = true := by rw [hl, hi]
    have hkeep := delimiter_tracks hset hi₁ .none count
    unfold extendOperator
    split
    · rename_i hdelimiter
      rw [hdelimiter] at hkeep
      exact hkeep
    · rename_i m₂ hdelimiter
      rw [hdelimiter] at hkeep
      have hreads := delimiter_reads hdelimiter
      refine ⟨onLexer_tracks hkeep rfl ?_, hreads.failure.trans h₁.failure,
        hreads.command.trans h₁.command⟩
      intro n low starts _ _ hword
      exact hword.congr rfl hword.operator hword.command hword.comment

/-- A round outside operators. -/
theorem round_ok (hw : m.lexer.active = true → m.lexer.kind = .word) {s : Step} (hround : Round d m s) :
    StepOk origin J fed s := by
  cases hround with
  | more hr =>
    have h₁ := hr.scanning h
    exact ⟨h₁.tracks, h₁.failure⟩
  | fail hr l message number position => exact failAt_tracks (hr.scanning h).tracks _ _ _ _
  | stuck hr hf ha => exact .inl (hr.scanning h).tracks
  | skip hr hi count hs =>
    have h₁ := hr.scanning h
    exact .attempt (consume_tracks h₁.tracks count) (h₁.reads fun _ => consume_reads)
  | comment hr hi hc rest hb =>
    have h₁ := hr.scanning h
    refine ⟨onLexer_tracks h₁.tracks rfl ?_, h₁.failure, h₁.command⟩
    intro n low starts _ _ hword
    exact hword.congr rfl hword.operator hword.command (fun _ => hi)
  | piece hr hi kind quote count hc =>
    have h₁ := hr.scanning h
    exact .attempt (piece_tracks h₁.tracks hi kind quote count) (h₁.reads fun _ => piece_reads)
  | @name m₁ hr hf value quote count hp hv =>
    have h₁ := hr.scanning h
    have hi : m₁.lexer.active = true := by
      by_contra hi
      obtain ⟨frame, frames, hframes, -⟩ := inFrame_iff.mp hf
      rw [h₁.frames (by simpa using hi)] at hframes
      cases hframes
    exact .attempt (delimiter_tracks h₁.tracks hi quote count) (h₁.reads fun _ => delimiter_reads)
  | push hr hi kind fragment quote count ho =>
    have h₁ := hr.scanning h
    have hk : kind ≠ .arithmetic := by
      cases ho <;> decide
    refine .attempt (push_tracks h₁.tracks hi (hr.word hw hi) h₁.command hk fragment quote count) ?_
    intro m' hpush
    have hreads := push_reads hpush
    exact ⟨hreads.failure.trans h₁.failure, hreads.command.trans h₁.command⟩
  | parameter hr hi rest hb quote value count hp hv =>
    exact pushParameter_ok (hr.scanning h) hi (hr.word hw hi) quote count
  | @pop m₁ hr frame frames hf count hc =>
    have h₁ := hr.scanning h
    have hk : frame.kind ≠ .arithmetic := by
      generalize frame.kind = kind at hc
      cases hc <;> decide
    have hi : m₁.lexer.active = true := by
      by_contra hi
      rw [h₁.frames (by simpa using hi)] at hf
      cases hf
    refine .attempt (pop_tracks h₁.tracks hi h₁.command hf hk count) ?_
    intro m' hpop
    obtain ⟨hfailure, hcommand, -⟩ := pop_reads hf hpop
    exact ⟨hfailure.trans h₁.failure, hcommand.trans h₁.command⟩
  | candidate hr hi rest hb quote second third h₂ h₃ =>
    exact pushArithmetic_ok (hr.scanning h) hi (hr.word hw hi) quote (h.opening hr hb h₂) third
  | expression hr hf c previous ha rest hb count hp =>
    exact popArithmetic_ok (hr.scanning h) hf ha count
  | command hr hi rest hb quote count hp =>
    exact commandOpening_ok (hr.scanning h) hi (hr.word hw hi) quote count
  | giveUp hr hf => exact giveUp_ok (hr.scanning h)
  | publish hr hi hf => exact publish_ok (hr.scanning h) hi hf
  | operator hr hi hc byte rest hb ho kind hk =>
    exact startOperator_ok (hr.scanning h) hi hc byte kind
  | newline hr hi hc rest hb => exact newlineToken_ok (hr.scanning h) hi hc
  | eof hf hi hp => exact ⟨h.tracks, h.failure⟩

theorem step_ok : StepOk origin J fed (m.step d) := by
  rcases step_round h.frames h.comment with ⟨hi, hk, hround⟩ | ⟨hw, hround⟩
  · exact operatorRound_ok h hi hk hround
  · exact round_ok h hw hround

end

/-! ### The interface -/

/-- The scanner ends with what its last round leaves. -/
theorem scanLoop_ok (h : Scanning origin J fed m) (fuel : ℕ) {result : LexResult} {m' : Machine}
    (hloop : scanLoop d fuel m = some (result, m')) : StepOk origin J fed (.done result m') := by
  induction fuel generalizing m with
  | zero => cases hloop
  | succ fuel ih =>
    have hstep := step_ok (d := d) h
    unfold scanLoop at hloop
    cases hs : m.step d with
    | again m₁ =>
      rw [hs] at hloop hstep
      exact ih hstep hloop
    | done r m₁ =>
      rw [hs] at hloop hstep
      cases hloop
      exact hstep

theorem nextToken_ok (h : Tracks origin J fed m) (depth : ℕ) :
    StepOk origin J fed (.done (m.nextToken d depth).1 (m.nextToken d depth).2) := by
  unfold nextToken
  split
  · exact .inl h
  · rename_i hfailure
    have hnone : m.source.failure = none := by simpa using hfailure
    split
    · exact failAt_tracks h _ _ _ _
    · split
      · exact ⟨h, hnone⟩
      · rename_i hcommand
        have hscan : Scanning origin J fed m := ⟨h, hnone, by simpa using hcommand⟩
        cases hloop : scanLoop d m.rounds m with
        | none => exact .inl h
        | some answer => exact scanLoop_ok hscan _ hloop

/-- `csh_lexer_next` keeps a machine in the input, and a token that started outside
every alias is the input between its positions. -/
theorem lexerNext_ok (h : Tracks origin J fed m) (depth : ℕ) :
    StepOk origin J fed (.done (m.lexerNext d depth).1 (m.lexerNext d depth).2) := by
  have hnext := nextToken_ok (d := d) h depth
  unfold lexerNext
  split
  · exact .inl h
  · generalize m.nextToken d depth = answer at hnext
    obtain ⟨result, m₁⟩ := answer
    cases result with
    | error =>
      dsimp only
      split
      · exact hnext
      · rename_i hreplayable
        rcases hnext with htracks | hdead
        · have hreplay := replayArithmetic_tracks htracks depth m₁.source.failure
          generalize m₁.replayArithmetic depth m₁.source.failure = answer at hreplay
          obtain ⟨replay, m₂⟩ := answer
          cases replay with
          | replayed => exact hreplay
          | refused => exact hreplay
          | failed => exact hreplay
        · -- Nothing is left to replay.
          obtain ⟨hchain, hlexer⟩ := unwind_chain m₁ depth
          have hmem : m₁.lexerAt depth ∈ m₁.chain := by
            rw [← hlexer]
            refine mem_of_mem_drop (i := m₁.depth - depth) ?_
            rw [← hchain]
            exact mem_cons_self
          rw [(hdead.2 _ hmem).2] at hreplayable
          exact absurd rfl hreplayable
    | eof => exact hnext
    | token t => exact hnext
    | more => exact hnext
    | command => exact hnext
    | replay => exact hnext

/-! ### What the other calls do -/

/-- A call that was refused, with a failure or without a new one. -/
def Refuses (m m' : Machine) : Prop :=
  m' = m ∨ ∃ l message number position, m' = m.failAt l message number position

theorem Refuses.tracks {m' : Machine} (hr : Refuses m m') (h : Tracks origin J fed m) :
    Tracks origin J fed m' ∨ Dead m' := by
  rcases hr with rfl | ⟨l, message, number, position, rfl⟩
  · exact .inl h
  · exact failAt_tracks h _ _ _ _

theorem feed_cases (m : Machine) (bytes : Bytes) (final : Bool) :
    (∃ m', m.feed bytes final = (false, m') ∧ Refuses m m') ∨
      m.source.failure = none ∧ m.source.final = false ∧
        m.feed bytes final = (true,
          { source := m.source.compact.append bytes final, lexer := m.lexer.feed bytes final,
            parents := m.parents.map (Lexer.feed bytes final) }) := by
  unfold Machine.feed
  split
  · exact .inl ⟨m, rfl, .inl rfl⟩
  · rename_i hfailure
    split
    · exact .inl ⟨_, rfl, .inr ⟨_, _, _, _, rfl⟩⟩
    · rename_i hfinal
      exact .inr ⟨by simpa using hfailure, by simpa using hfinal, rfl⟩

theorem commandBegin_cases (m : Machine) (depth : ℕ) :
    (∃ m', m.commandBegin depth = (false, m') ∧ Refuses m m') ∨
      m.source.failure = none ∧ depth = m.depth ∧ m.lexer.command = true ∧
        m.commandBegin depth = (true, { m with lexer := {}, parents := m.lexer :: m.parents }) := by
  unfold Machine.commandBegin
  split
  · exact .inl ⟨m, rfl, .inl rfl⟩
  · rename_i hfailure
    split
    · exact .inl ⟨_, rfl, .inr ⟨_, _, _, _, rfl⟩⟩
    · rename_i hguard
      rw [not_or] at hguard
      exact .inr ⟨by simpa using hfailure, by simpa using hguard.1, by simpa using hguard.2, rfl⟩

theorem commandEnd_cases (m : Machine) (depth : ℕ) (closing : Token) :
    (∃ m', m.commandEnd depth closing = (false, m') ∧ Refuses m m') ∨
      ∃ parent rest m', m.source.failure = none ∧ m.parents = parent :: rest ∧
        depth = rest.length ∧ parent.command = true ∧ m.closes closing = true ∧
        pop { m with lexer := { parent with command := false }, parents := rest } 0 = .ok m' ∧
        m.commandEnd depth closing = (true, m') := by
  have hpop : ∀ m : Machine, ∃ m', m.pop 0 = .ok m' := by
    intro m
    unfold pop
    split
    · exact ⟨_, rfl⟩
    · exact ⟨_, rfl⟩
  unfold Machine.commandEnd
  split
  · exact .inl ⟨m, rfl, .inl rfl⟩
  · rename_i hfailure
    split
    · rename_i parent rest hp
      split
      · rename_i hguard
        obtain ⟨m', heq⟩ :=
          hpop { m with lexer := { parent with command := false }, parents := rest }
        right
        refine ⟨parent, rest, m', by simpa using hfailure, hp, hguard.1, hguard.2.1, hguard.2.2, heq, ?_⟩
        dsimp only
        rw [heq]
      · exact .inl ⟨_, rfl, .inr ⟨_, _, _, _, rfl⟩⟩
    · exact .inl ⟨_, rfl, .inr ⟨_, _, _, _, rfl⟩⟩

/-! ### Feeding -/

/-- A feed goes to the end of a tape. -/
theorem OnTape.append {s : Source} (h : OnTape origin J fed n s) {bytes : Bytes}
    (hj : fed ++ bytes <+: J) (final : Bool) :
    OnTape origin J (fed ++ bytes) n (s.append bytes final) := by
  have hle : s.physicalCursor ≤ s.data.length := by
    unfold Source.physicalCursor
    cases hget : s.aliases.getLast? with
    | none => exact h.cursor
    | some a => exact h.within a (mem_of_getLast? hget)
  have hlen : s.data.length ≤ (s.data ++ bytes).length := by
    rw [length_append]
    exact Nat.le_add_right _ _
  refine ⟨hj, h.le.trans (by rw [length_append]; exact Nat.le_add_right _ _), ?_, h.position,
    h.stops, fun a ha => (h.within a ha).trans hlen, h.cursor.trans hlen⟩
  · show (s.data ++ bytes).drop s.physicalCursor = _
    rw [drop_append_of_le_length hle, h.tape, drop_append_of_le_length h.le]

theorem map_startOf_feed (ls : List Lexer) (bytes : Bytes) (final : Bool) :
    (ls.map (Lexer.feed bytes final)).map (startOf origin) = ls.map (startOf origin) := by
  rw [map_map]
  rfl

theorem unread_append {s : Source} (h : OnTape origin J fed n s) (final : Bool) (bytes : Bytes) :
    (s.append bytes final).unread = s.unread ++ bytes :=
  drop_append_of_le_length h.cursor

/-- A feed reaches the tapes of all checkpoints; none of them has been read. -/
theorem Candidates.feed {starts : List (Option ℕ)} {fragments : List Fragment} {low index limit : ℕ}
    {frames : List Frame} {cs : List Checkpoint}
    (h : Candidates origin J fed starts fragments low frames cs index limit) {bytes : Bytes}
    (hj : fed ++ bytes <+: J) (final : Bool) :
    Candidates origin J (fed ++ bytes) starts fragments low frames
      (cs.map fun c => { c with source := c.source.append bytes final }) index limit := by
  induction h with
  | nil => exact .nil _ _
  | frame hk hi _ ih => exact .frame hk hi ih
  | @candidate f frames c cs index limit n hk hi hcount hframes hs hlow hn _ ih =>
    refine .candidate hk hi hcount hframes ?_ hlow hn ih
    exact ⟨hs.tape.append hj final, hs.failure, hs.owners, hs.shielded, hs.captures, hs.fragments,
      hs.look, unread_append hs.tape final bytes ▸ hs.opening.append bytes⟩

theorem Chain.feed {limit : ℕ} {ls : List Lexer} (h : Chain origin J fed n limit ls) {bytes : Bytes}
    (hj : fed ++ bytes <+: J) (final : Bool) :
    Chain origin J (fed ++ bytes) n limit (ls.map (Lexer.feed bytes final)) := by
  induction ls generalizing limit with
  | nil => trivial
  | cons l ls ih =>
    obtain ⟨low, hlow, hword, hrest⟩ := h
    refine ⟨low, hlow, ?_, ih hrest⟩
    rw [map_startOf_feed]
    refine ⟨?_, hword.candidates.feed hj final, hword.operator, hword.command, ?_, hword.comment⟩
    · intro a ha
      exact ⟨(hword.held a ha).1, (hword.held a ha).2.congr rfl rfl rfl rfl⟩
    · intro hi
      obtain ⟨hraw, hfragments, hframes, harithmetic, halias⟩ := hword.idle hi
      refine ⟨hraw, hfragments, hframes, ?_, halias⟩
      show l.arithmetic.map _ = []
      rw [harithmetic, map_nil]

theorem Traced.feed (h : Traced origin J fed n m) {bytes : Bytes} (hj : fed ++ bytes <+: J)
    (final : Bool) :
    Traced origin J (fed ++ bytes) n
      { source := m.source.compact.append bytes final, lexer := m.lexer.feed bytes final,
        parents := m.parents.map (Lexer.feed bytes final) } where
  tape := (OnTape.compact h.tape rfl rfl rfl rfl : OnTape origin J fed n m.source.compact).append hj
    final
  owners := by
    intro a ha
    obtain ⟨b, hb, rfl⟩ := mem_map.mp ha
    have := h.owners b hb
    simpa [depth] using this
  shielded := by
    have hshield := h.shielded.map (f := fun a => { a with stop := a.stop - m.source.cursor })
      fun _ => rfl
    show Shielded _ (startOf origin m.lexer ::
      (m.parents.map (Lexer.feed bytes final)).map (startOf origin))
    rw [map_startOf_feed]
    exact hshield
  chain := h.chain.feed hj final
  look := by
    have hcompact : OnTape origin J fed n m.source.compact := OnTape.compact h.tape rfl rfl rfl rfl
    intro c hc hoffset
    have hunread : (m.source.compact.append bytes final).unread = m.source.unread ++ bytes :=
      unread_append hcompact final bytes
    rw [hunread]
    exact (h.look c hc hoffset).append bytes

/-! ### Command substitutions -/

/-- The lexer of a command substitution is created. -/
theorem Traced.commandBegin (h : Traced origin J fed n m) :
    Traced origin J fed n { m with lexer := {}, parents := m.lexer :: m.parents } where
  tape := h.tape
  owners a ha := (h.owners a ha).trans (Nat.le_succ _)
  shielded := by
    refine ⟨?_, h.shielded⟩
    intro hsome
    cases hsome
  chain := by
    refine ⟨n, Nat.le_refl _, ⟨?_, .nil _ _, fun _ => rfl, ?_, ?_, ?_⟩, h.chain⟩
    · intro a ha
      cases ha
    · intro hc
      cases hc
    · exact fun _ => ⟨rfl, rfl, rfl, rfl, rfl⟩
    · intro hq
      cases hq
  look := h.look

/-- No alias that was substituted below a depth is still being read. -/
def CleanAt (s : Source) (depth : ℕ) : Prop := ∀ a ∈ s.aliases, a.ownerDepth ≤ depth

instance (s : Source) (depth : ℕ) : Decidable (CleanAt s depth) := by
  unfold CleanAt
  infer_instance

/-- The lexer of a command substitution is destroyed, and the word that encloses it
goes on. -/
theorem Traced.commandEnd (h : Traced origin J fed n m) {parent : Lexer} {rest : List Lexer}
    (hp : m.parents = parent :: rest) (hc : parent.command = true)
    (hclean : CleanAt m.source rest.length) :
    Keeps (Tracks origin J fed)
      (pop { m with lexer := { parent with command := false }, parents := rest } 0) := by
  obtain ⟨low, hlow, -, hparent⟩ := h.chain
  rw [hp] at hparent
  obtain ⟨low', hlow', hword, hrest⟩ := hparent
  obtain ⟨frame, frames, hframes, hk⟩ := inFrame_iff.mp (hword.command hc)
  have hi : parent.active = true := by
    by_contra hi
    rw [(hword.idle (by simpa using hi)).2.2.1] at hframes
    cases hframes
  have hshield := h.shielded.2
  rw [hp] at hshield
  have htracks : Tracks origin J fed
      { m with lexer := { parent with command := false }, parents := rest } := by
    refine ⟨n, h.tape, hclean, hshield, ⟨low', hlow'.trans hlow, ?_, hrest⟩, h.look⟩
    refine (hword.mono hlow (Nat.le_refl _)).congr rfl hword.operator ?_ hword.comment
    intro hc
    cases hc
  exact pop_tracks htracks hi rfl hframes (by rw [hk]; decide) 0

/-! ### Aliases -/

theorem Shielded.cons {aliases : List AliasSource} {starts : List (Option ℕ)} {a : AliasSource}
    (h : Shielded aliases starts) (ha : starts.length ≤ a.ownerDepth) :
    Shielded (a :: aliases) starts := by
  induction starts with
  | nil => trivial
  | cons start starts ih =>
    have hlt : starts.length < a.ownerDepth := ha
    refine ⟨?_, ih h.2 hlt.le⟩
    intro hsome b hb
    rcases mem_cons.mp hb with rfl | hb
    · exact hlt
    · exact h.1 hsome b hb

/-- A value is inserted at the cursor; the physical input goes on behind it. -/
theorem OnTape.insert {s s' : Source} (h : OnTape origin J fed n s) {text : Bytes} (hne : text ≠ []) {entry : AliasSource}
    (hd : s'.data = s.data.take s.cursor ++ text ++ s.unread) (hcursor : s'.cursor = s.cursor)
    (hstop : entry.stop = s.cursor + text.length) (hresume : entry.resume = s.position)
    (ha : s'.aliases = entry :: s.aliases.map fun a => { a with stop := a.stop + text.length }) :
    OnTape origin J fed n s' := by
  have hpos : 0 < text.length := length_pos_iff.mpr hne
  have hstops := pairwise_cons.mp h.stops
  have hlow : ∀ a ∈ s.aliases, s.cursor < a.stop := by
    intro a hmem
    exact hstops.1 _ (mem_map_of_mem hmem)
  have hdrop : ∀ k, s.cursor ≤ k → s'.data.drop (k + text.length) = s.data.drop k := by
    intro k hk
    have hlen : (s.data.take s.cursor ++ text).length = s.cursor + text.length := by
      rw [length_append, length_take, Nat.min_eq_left h.cursor]
    rw [hd, show k + text.length = (s.data.take s.cursor ++ text).length + (k - s.cursor) by omega,
      drop_length_add_append, Source.unread, drop_drop, Nat.add_sub_cancel' hk]
  have hlen : s'.data.length = s.data.length + text.length := by
    have := h.cursor
    rw [hd, length_append, length_append, length_take, Source.unread,
      length_drop]
    omega
  have hbound := h.cursor
  refine ⟨h.input, h.le, ?_, ?_, ?_, ?_, by omega⟩
  · rw [← h.tape]
    unfold Source.physicalCursor
    rw [ha, getLast?_cons, getLast?_map]
    cases hget : s.aliases.getLast? with
    | none =>
      show s'.data.drop entry.stop = s.data.drop s.cursor
      rw [hstop, hdrop _ (Nat.le_refl _)]
    | some bottom =>
      exact hdrop _ (hlow bottom (mem_of_getLast? hget)).le
  · rw [← h.position]
    unfold Source.physicalPosition
    rw [ha, getLast?_cons, getLast?_map]
    cases s.aliases.getLast? with
    | none => exact hresume
    | some bottom => rfl
  · rw [hcursor, ha, map_cons, map_map, pairwise_cons, pairwise_cons]
    refine ⟨?_, ?_, ?_⟩
    · intro stop hmem
      rcases mem_cons.mp hmem with rfl | hmem
      · omega
      · obtain ⟨a, hin, rfl⟩ := mem_map.mp hmem
        have := hlow a hin
        show s.cursor < a.stop + text.length
        omega
    · intro stop hmem
      obtain ⟨a, hin, rfl⟩ := mem_map.mp hmem
      have := hlow a hin
      show entry.stop < a.stop + text.length
      omega
    · rw [pairwise_map]
      refine (pairwise_map.mp hstops.2).imp ?_
      intro a b hlt
      show a.stop + text.length < b.stop + text.length
      omega
  · rw [ha, hlen]
    intro a hmem
    rcases mem_cons.mp hmem with rfl | hmem
    · omega
    · obtain ⟨b, hin, rfl⟩ := mem_map.mp hmem
      have := h.within b hin
      show b.stop + text.length ≤ _
      omega

/-- The deepest lexer substitutes an alias between two tokens. -/
theorem Traced.substitute (h : Traced origin J fed n m) (hi : m.lexer.active = false)
    {text : Bytes} (hne : text ≠ []) {added : ℕ} (hadded : added = text.length)
    {entry : AliasSource} {s : Source}
    (ha : s.aliases = entry :: m.source.aliases.map fun a => { a with stop := a.stop + added })
    (hd : s.data = m.source.data.take m.source.cursor ++ text ++ m.source.unread)
    (hc : s.cursor = m.source.cursor) (hstop : entry.stop = m.source.cursor + added)
    (hresume : entry.resume = m.source.position) (howner : entry.ownerDepth = m.depth)
    (hlook : s.look = none) :
    Traced origin J fed n { m with source := s, lexer := { m.lexer with last := none } } where
  tape := by
    subst hadded
    exact h.tape.insert hne hd hc hstop hresume ha
  owners := by
    rw [ha]
    intro a hmem
    rcases mem_cons.mp hmem with rfl | hmem
    · exact Nat.le_of_eq howner
    · obtain ⟨b, hb, rfl⟩ := mem_map.mp hmem
      exact h.owners b hb
  shielded := by
    rw [ha]
    refine ⟨?_, Shielded.cons (h.shielded.2.map fun _ => rfl) ?_⟩
    · intro hsome
      have hsome' : (startOf origin m.lexer).isSome = true := hsome
      simp [startOf, hi] at hsome'
    · rw [howner]
      exact Nat.le_of_eq (length_map _)
  chain := by
    obtain ⟨low, hlow, hword, hrest⟩ := h.chain
    exact ⟨low, hlow, hword.congr rfl hword.operator hword.command hword.comment, hrest⟩
  look := lookOk_none hlook

/-- `csh_lexer_alias_push` keeps a machine in the input. -/
theorem aliasPush_tracks (h : Tracks origin J fed m) (depth : ℕ) (token : Token)
    (name value : Bytes) :
    Tracks origin J fed (m.aliasPush depth token name value).2 ∨
      Dead (m.aliasPush depth token name value).2 := by
  unfold aliasPush
  split
  · exact .inl h
  · split
    · exact failAt_tracks h _ _ _ _
    · rename_i hguard
      obtain ⟨n, htraced⟩ := h
      have hi : m.lexer.active = false := by
        have hdelimited : m.delimited token = true := by
          by_contra hne
          exact hguard (.inr (.inr (.inl (by simpa using hne))))
        unfold delimited at hdelimited
        rw [Bool.and_eq_true] at hdelimited
        simpa using hdelimited.1
      have hne : value ++ [byteOf ' '] ≠ [] :=
        append_ne_nil_of_right_ne_nil value (cons_ne_nil _ _)
      have hadded : value.length + 1 = (value ++ [byteOf ' ']).length := by
        rw [length_append, length_singleton]
      refine .inl ⟨n, htraced.substitute hi hne hadded rfl ?_ rfl rfl rfl rfl rfl⟩
      show _ ++ value ++ [byteOf ' '] ++ m.source.unread = _
      rw [append_assoc (m.source.data.take m.source.cursor)]

/-- `csh_lexer_skip_raw` keeps a machine in the input. -/
theorem skipRaw_tracks (h : Tracks origin J fed m) (depth length : ℕ) :
    Tracks origin J fed (m.skipRaw depth length).2 ∨ Dead (m.skipRaw depth length).2 := by
  unfold skipRaw
  split
  · exact .inl h
  · split
    · exact failAt_tracks h _ _ _ _
    · have hlast : Tracks origin J fed (m.onLexer fun l => { l with last := none }) := by
        refine onLexer_tracks h rfl ?_
        intro n low starts _ _ hword
        exact hword.congr rfl hword.operator hword.command hword.comment
      have hkeep := consume_tracks hlast length
      split
      · rename_i hconsume
        rw [hconsume] at hkeep
        exact .inl hkeep
      · rename_i hconsume
        rw [hconsume] at hkeep
        exact hkeep

end Lexical
end CShell
