import CShell.Lexer.Draft
import CShell.Lexer.Lossless

/-!
# Every word has a draft

The scanner, the replays and the other calls of the interface keep the drafts of the
pending words, whatever aliases are substituted in between.

## Main results

* `step_drafted` — a round keeps the drafts.
* `restore_drafted` — so does a replay, on any lexer of the chain.
* `Session.rounds_suffice` — the loop of `next_token` ends within its bound.
* `Session.words_drafted` — every word that a run returns has a draft.

## References

`src/lexer.c`.
-/

namespace CShell
namespace Lexical

open Machine List

variable {d : Decoder} {root : Bool} {m m' : Machine} {bases : List ℕ}

/-! ### Lookahead behind the helpers -/

variable {count : ℕ} {quote : Quote} {frame : Frame} {frames : List Frame} {m₁ : Machine}
  {r : Except Machine Machine} {kind : FrameKind} {fragment : FragmentKind}
  {previous : List Checkpoint}

theorem consume_look (h : m.consume count = .ok m') : m'.source.look = none := by
  induction count generalizing m with
  | zero =>
    cases h
    rfl
  | succ count ih =>
    unfold consume at h
    dsimp only at h
    split at h
    · cases h
    · exact ih h

theorem piece_look {kind : FragmentKind}
    (h : m.piece kind quote count = .ok m') : m'.source.look = none := by
  unfold piece at h
  dsimp only at h
  split at h
  · cases h
  · rename_i m₁ hconsume
    cases h
    show m₁.source.look = none
    exact consume_look hconsume

theorem delimiter_look (hl : LookOk m.source)
    (h : m.delimiter quote count = .ok m') : LookOk m'.source := by
  fun_induction Machine.delimiter m quote count with
  | case1 m =>
    cases h
    exact hl
  | case2 m => exact lookOk_none (consume_look h)
  | case3 m count hcont m₁ hpiece => cases h
  | case4 m count hcont m₁ hpiece ih => exact ih (lookOk_none (piece_look hpiece)) h
  | case5 m count hcont m₁ hconsume => cases h
  | case6 m count hcont m₁ hconsume ih => exact ih (lookOk_none (consume_look hconsume)) h

theorem onFrame_nil {l : Lexer} (h : l.frames = []) (f : Frame → Frame) : l.onFrame f = l := by
  unfold Lexer.onFrame
  rw [h]

theorem onFrame_cons {l : Lexer}
    (h : l.frames = frame :: frames) (f : Frame → Frame) :
    l.onFrame f = { l with frames := f frame :: frames } := by
  unfold Lexer.onFrame
  rw [h]

/-! ### What is kept of a machine -/

namespace Ordered

section

variable (h : Ordered d root m bases)
include h

theorem checkpoints (hf : m.lexer.frames = []) : m.lexer.arithmetic = [] := by
  have hlevels := h.levels
  rw [hf] at hlevels
  exact hlevels.nil_of_frames

theorem based : m.lexer.Based := fun c hc => (h.levels.counts c hc).1

theorem checked : m.lexer.Checked :=
  fun c hc => ⟨(h.levels.counts c hc).1.le, (h.levels.counts c hc).2.le⟩

theorem uncommented (hi : m.lexer.active = true) : m.lexer.comment = false := by
  by_contra hq
  rw [h.comment (by simpa using hq)] at hi
  cases hi

/-- A lexer that reads its own tape has no command substitution open. -/
theorem scanning (hc : m.lexer.command = false) :
    ∀ frame ∈ m.lexer.frames, frame.kind ≠ .command := by
  intro frame hmem
  have hscans := h.scans hc
  have hsingle := h.single
  cases hframes : m.lexer.frames with
  | nil =>
    rw [hframes] at hmem
    cases hmem
  | cons top rest =>
    rw [hframes] at hmem hsingle
    rcases mem_cons.mp hmem with rfl | hmem
    · intro hkind
      rw [inFrame_iff.mpr ⟨frame, rest, hframes, hkind⟩] at hscans
      cases hscans
    · exact hsingle frame hmem

end

/-- A lexer without an open frame. -/
theorem bare (hh : Hanging d root m.parents bases) (hd : m.lexer.document = (bases.isEmpty && root))
    (hf : m.lexer.frames = []) (ha : m.lexer.arithmetic = [])
    (hi : m.lexer.active = false → m.lexer.raw = [] ∧ m.lexer.fragments = [])
    (hq : m.lexer.comment = true → m.lexer.active = false) (hc : m.lexer.command = false)
    (hl : LookOk m.source) : Ordered d root m bases where
  hanging := hh
  document := hd
  levels := by
    rw [hf, ha]
    exact .nil _
  single := by
    rw [hf]
    exact fun x hx => by cases hx
  armed hne := absurd hf hne
  reserved := by
    rw [ha]
    exact .nil _
  idle hi' := ⟨(hi hi').1, (hi hi').2, hf⟩
  operator _ := hf
  comment := hq
  command hc' := by
    rw [hc] at hc'
    cases hc'
  scans _ := by
    unfold Lexer.inFrame
    rw [hf]
  look := hl

/-- A lexer that reads a word. -/
theorem word (h : Anchored d root m bases) (hi : m.lexer.active = true) (hk : m.lexer.kind = .word)
    (hq : m.lexer.comment = false) (hc : m.lexer.command = false)
    (hs : m.lexer.inFrame .command = false) (hl : LookOk m.source) : Ordered d root m bases where
  toAnchored := h
  idle hi' := by
    rw [hi] at hi'
    cases hi'
  operator hk' := absurd hk hk'
  comment hq' := by
    rw [hq] at hq'
    cases hq'
  command hc' := by
    rw [hc] at hc'
    cases hc'
  scans _ := hs
  look := hl

/-- A token goes on. -/
theorem goes (h : Ordered d root m bases) (hp : Proceeds m m') (hi : m.lexer.active = true)
    (hl : LookOk m'.source) : Ordered d root m' bases where
  toAnchored := h.toAnchored.proceeds hp
  idle hi' := by
    rw [hp.active, hi] at hi'
    cases hi'
  operator hk := by
    rw [hp.kind] at hk
    rw [hp.frames]
    exact h.operator hk
  comment hq := by
    rw [hp.comment] at hq
    rw [hp.active]
    exact h.comment hq
  command hc := by
    rw [hp.command] at hc
    unfold Lexer.inFrame
    rw [hp.frames]
    exact h.command hc
  scans hc := by
    rw [hp.command] at hc
    unfold Lexer.inFrame
    rw [hp.frames]
    exact h.scans hc
  look := hl

/-- The lookahead is not part of a token. -/
theorem looked (h : Ordered d root m bases) {s : Source} (hl : LookOk s) :
    Ordered d root { m with source := s } bases where
  toAnchored := ⟨h.hanging, h.document, h.levels, h.single, h.armed, h.reserved⟩
  toTidy := ⟨h.idle, h.operator, h.comment, h.command, h.scans, hl⟩

/-- A comment begins or ends. -/
theorem commented (h : Ordered d root m bases) (comment : Bool)
    (hq : comment = true → m.lexer.active = false) :
    Ordered d root (m.onLexer fun l => { l with comment }) bases where
  hanging := h.hanging
  document := h.document
  levels := h.levels
  single := h.single
  armed hne := by
    obtain ⟨hi, hk, -⟩ := h.armed hne
    refine ⟨hi, hk, ?_⟩
    show comment = false
    by_contra hcomment
    rw [hq (by simpa using hcomment)] at hi
    cases hi
  reserved := h.reserved.congr rfl (fun _ _ => rfl) fun _ _ => ⟨rfl, rfl⟩
  idle := h.idle
  operator := h.operator
  comment := hq
  command := h.command
  scans := h.scans
  look := h.look

/-- A token is started. -/
theorem start (h : Ordered d root m bases) (hi : m.lexer.active = false)
    (hq : m.lexer.comment = false) (hc : m.lexer.command = false) (f : Lexer → Lexer)
    (hf : ∀ l, ∃ text kind, f l = { l with operatorText := text, kind }) :
    Ordered d root (m.startToken.onLexer f) bases ∧ (m.startToken.onLexer f).lexer.active = true := by
  obtain ⟨-, -, hframes⟩ := h.idle hi
  obtain ⟨-, -, -, -, hframes', harithmetic', hcommand', hcomment', -⟩ := startToken_lexer m
  obtain ⟨l, heq, hactive⟩ := startToken_eq m
  have hdocument : m.startToken.lexer.document = m.lexer.document := by
    unfold startToken
    dsimp only
    split <;> rfl
  obtain ⟨text, kind, hlexer⟩ := hf m.startToken.lexer
  have hlexer' : (m.startToken.onLexer f).lexer =
      { m.startToken.lexer with operatorText := text, kind } := hlexer
  have hactive' : (m.startToken.onLexer f).lexer.active = true := by
    rw [hlexer', heq]
    exact hactive
  refine ⟨bare h.hanging ?_ ?_ ?_ ?_ ?_ ?_ h.look, hactive'⟩
  · rw [hlexer']
    exact hdocument.trans h.document
  · rw [hlexer']
    exact hframes'.trans hframes
  · rw [hlexer']
    exact harithmetic'.trans (h.checkpoints hframes)
  · intro hi'
    rw [hactive'] at hi'
    cases hi'
  · intro hq'
    rw [hlexer'] at hq'
    have hq'' : m.startToken.lexer.comment = true := hq'
    rw [hcomment', hq] at hq''
    cases hq''
  · rw [hlexer']
    exact hcommand'.trans hc

theorem onFrame (h : Ordered d root m bases) (f : Frame → Frame)
    (hf : ∀ x, (f x).kind = x.kind ∧ (f x).fragment = x.fragment) :
    Ordered d root (m.onLexer fun l => l.onFrame f) bases := by
  cases hframes : m.lexer.frames with
  | nil =>
    have hm : (m.onLexer fun l => l.onFrame f) = m :=
      congrArg (fun l => ({ m with lexer := l } : Machine)) (onFrame_nil hframes f)
    rw [hm]
    exact h
  | cons frame frames =>
    have hm : (m.onLexer fun l => l.onFrame f) =
        { m with lexer := { m.lexer with frames := f frame :: frames } } :=
      congrArg (fun l => ({ m with lexer := l } : Machine)) (onFrame_cons hframes f)
    rw [hm]
    have hlevels := h.levels
    have hsingle := h.single
    have harmed := h.armed (by rw [hframes]; exact cons_ne_nil _ _)
    rw [hframes] at hlevels hsingle
    have hin : Lexer.inFrame { m.lexer with frames := f frame :: frames } .command =
        m.lexer.inFrame .command := by
      unfold Lexer.inFrame
      rw [hframes]
      show decide ((f frame).kind = .command) = decide (frame.kind = .command)
      rw [(hf frame).1]
    refine ⟨⟨h.hanging, h.document, hlevels.onFrame (hf frame).1 (hf frame).2, hsingle,
      fun _ => harmed, ?_⟩, ?_, ?_, h.comment, ?_, ?_, h.look⟩
    · refine h.reserved.congr rfl (fun _ _ => rfl) ?_
      intro c hc
      -- The frame of the checkpoint itself is not returned to.
      have hlt := (hlevels.counts c hc).2
      refine ⟨rfl, ?_⟩
      show (f frame :: frames).drop (frames.length + 1 - c.frameCount) = _
      rw [length_cons] at hlt
      rw [hframes, length_cons, Nat.succ_sub (Nat.le_of_lt_succ hlt), drop_succ_cons,
        drop_succ_cons]
    · intro hi
      have hi' : m.lexer.active = false := hi
      rw [harmed.1] at hi'
      cases hi'
    · intro hk
      exact absurd harmed.2.1 hk
    · intro hc
      rw [hin]
      exact h.command hc
    · intro hc
      rw [hin]
      exact h.scans hc

end Ordered

/-- Making a machine ready keeps everything but the look of the innermost frame. -/
theorem Readies.ordered (hr : Readies d m m₁) (h : Ordered d root m bases)
    (hc : m.lexer.command = false) :
    Ordered d root m₁ bases ∧ m₁.lexer.command = false := by
  induction hr with
  | refl => exact ⟨h, hc⟩
  | @look m₁ wanted _ ih =>
    have hlook := ih.1.look.peek (d := d) wanted
    obtain ⟨c, heq⟩ := peek_eq (d := d) m₁ wanted
    rw [heq] at hlook ⊢
    exact ⟨ih.1.looked hlook, ih.2⟩
  | clear _ _ ih => exact ⟨ih.1.commented false (fun hq => by cases hq), ih.2⟩
  | @frame m₁ f hf _ ih =>
    refine ⟨ih.1.onFrame f hf, ?_⟩
    obtain ⟨frames, heq⟩ := onFrame_eq m₁.lexer f
    show (m₁.lexer.onFrame f).command = false
    rw [heq]
    exact ih.2
  | @start m₁ hi hq _ ih =>
    refine ⟨(ih.1.start hi hq ih.2 _ fun l => ⟨l.operatorText, .word, rfl⟩).1, ?_⟩
    show m₁.startToken.lexer.command = false
    rw [(startToken_lexer m₁).2.2.2.2.2.2.1]
    exact ih.2

/-- What making a machine ready leaves of its word. -/
structure Alikeness (m m₁ : Machine) : Prop where
  raw : m₁.lexer.raw = m.lexer.raw
  fragments : m₁.lexer.fragments = m.lexer.fragments
  frames : m₁.lexer.frames.length = m.lexer.frames.length
  document : m₁.lexer.document = m.lexer.document
  failure : m₁.source.failure = m.source.failure
  command : m₁.lexer.command = m.lexer.command
  active : m.lexer.active = true → m₁.lexer.active = true ∧ m₁.lexer.kind = m.lexer.kind

theorem Readies.alike (hr : Readies d m m₁) : Alikeness m m₁ := by
  induction hr with
  | refl => exact ⟨rfl, rfl, rfl, rfl, rfl, rfl, fun h => ⟨h, rfl⟩⟩
  | @look m₁ wanted _ ih =>
    obtain ⟨c, heq⟩ := peek_eq (d := d) m₁ wanted
    rw [heq]
    exact ⟨ih.raw, ih.fragments, ih.frames, ih.document, ih.failure, ih.command, ih.active⟩
  | clear _ _ ih => exact ⟨ih.raw, ih.fragments, ih.frames, ih.document, ih.failure, ih.command, ih.active⟩
  | @frame m₁ f hf _ ih =>
    have hlength : (m₁.lexer.onFrame f).frames.length = m₁.lexer.frames.length := by
      cases hframes : m₁.lexer.frames with
      | nil => rw [onFrame_nil hframes, hframes]
      | cons frame frames =>
        rw [onFrame_cons hframes]
        rfl
    obtain ⟨frames, heq⟩ := onFrame_eq m₁.lexer f
    have hm : (m₁.onLexer fun l => l.onFrame f) = { m₁ with lexer := { m₁.lexer with frames } } :=
      congrArg (fun l => ({ m₁ with lexer := l } : Machine)) heq
    rw [heq] at hlength
    rw [hm]
    exact ⟨ih.raw, ih.fragments, hlength.trans ih.frames, ih.document, ih.failure, ih.command,
      ih.active⟩
  | @start m₁ hi hq _ ih =>
    obtain ⟨-, -, hraw, hfragments, hframes, -, hcommand, -⟩ := startToken_lexer m₁
    have hdocument : m₁.startToken.lexer.document = m₁.lexer.document := by
      unfold startToken
      dsimp only
      split <;> rfl
    refine ⟨hraw.trans ih.raw, hfragments.trans ih.fragments,
      (congrArg length hframes).trans ih.frames, hdocument.trans ih.document, ih.failure,
      hcommand.trans ih.command, ?_⟩
    intro hactive
    rw [(ih.active hactive).1] at hi
    cases hi

/-! ### Results of a round -/

variable (d root) in
/-- A failed round. -/
def Failed (m : Machine) : Prop :=
  (∃ bases, Anchored d root m bases ∧ m.source.failure.isSome = true) ∨ Dead m

variable (d root bases) in
/-- What a round leaves, but for the draft of the word it goes on with. -/
def StepOrdered : Step → Prop
  | .again m => Ordered d root m bases
  | .done .error m => Failed d root m
  | .done .replay m => ∃ bases, Drafted d root m bases
  | .done _ m => Ordered d root m bases

/-- A helper that failed. -/
theorem Anchored.failed (h : Anchored d root m bases)
    (hp : Keeps (Proceeds m) r) (hr : r = .error m') (hf : m'.source.failure.isSome = true) :
    Failed d root m' := by
  rw [hr] at hp
  exact hp.imp (fun hp => ⟨bases, h.proceeds hp, hf⟩) id

theorem Anchored.attempt (h : Anchored d root m bases)
    (hp : Keeps (Proceeds m) r)
    (hf : ∀ {m'}, r = .error m' → m'.source.failure.isSome = true)
    (hok : ∀ {m'}, r = .ok m' → Proceeds m m' → Ordered d root m' bases) :
    StepOrdered d root bases (.attempt r) := by
  cases r with
  | error m' => exact h.failed hp rfl (hf rfl)
  | ok m' => exact hok rfl hp

theorem Anchored.failAt (h : Anchored d root m bases) (l : Lexer) (message : Bytes) (number : ℕ)
    (position : Position) : Failed d root (m.failAt l message number position) := by
  have hsome := failAt_failure m l message number position
  rcases failAt_cases m l message number position with ⟨failure, heq⟩ | hdead
  · rw [heq] at hsome ⊢
    exact .inl ⟨bases,
      ⟨h.hanging, h.document, h.levels, h.single, h.armed, h.reserved⟩, hsome⟩
  · exact .inr hdead

theorem piece_ordered (h : Ordered d root m bases) (hi : m.lexer.active = true)
    (kind : FragmentKind) (quote : Quote) (count : ℕ) :
    StepOrdered d root bases (.attempt (m.piece kind quote count)) := by
  apply h.toAnchored.attempt (piece_proceeds h.based kind quote count) piece_failure
  intro m' hpiece hp
  exact h.goes hp hi (lookOk_none (piece_look hpiece))

theorem name_ordered (h : Ordered d root m bases) (hi : m.lexer.active = true) (quote : Quote)
    (count : ℕ) : StepOrdered d root bases (.attempt (m.delimiter quote count)) := by
  apply h.toAnchored.attempt (delimiter_proceeds h.based quote count) delimiter_failure
  intro m' hdelimiter hp
  exact h.goes hp hi (delimiter_look h.look hdelimiter)

/-- Bytes between tokens. -/
theorem skip_ordered (h : Ordered d root m bases) (hi : m.lexer.active = false)
    (hc : m.lexer.command = false) (count : ℕ) :
    StepOrdered d root bases (.attempt (m.consume count)) := by
  apply h.toAnchored.attempt (consume_proceeds m count) consume_failure
  intro m' hconsume hp
  obtain ⟨hraw, hfragments, hframes⟩ := h.idle hi
  obtain ⟨w, -, htook⟩ := consume_took hconsume
  obtain ⟨raw, position, heq⟩ := consume_lexer count hconsume
  have hanchored := h.toAnchored.proceeds hp
  refine .bare hanchored.hanging hanchored.document (hp.frames.trans hframes) ?_ ?_ ?_
    (hp.command.trans hc) (lookOk_none (consume_look hconsume))
  · rw [hp.arithmetic]
    exact h.checkpoints hframes
  · intro _
    refine ⟨?_, ?_⟩
    · rw [htook.raw, hi]
      exact hraw
    · rw [heq]
      exact hfragments
  · intro _
    exact hp.active.trans hi

/-! ### Frames -/

/-- A frame is put on the stack. -/
theorem Ordered.opened (h : Ordered d root m bases) (hc : m.lexer.command = false)
    (hi : m.lexer.active = true) (hk : m.lexer.kind = .word)
    (hkind : kind ≠ .arithmetic) (fragment : FragmentKind) (quote : Quote) :
    Anchored d root (m.opened kind fragment quote) bases := by
  obtain ⟨hgrows, -⟩ := Grows.opened h.checked kind fragment quote
  have hlength : (m.opened kind fragment quote).lexer.fragments.length =
      m.lexer.fragments.length + 1 := length_append
  refine ⟨h.hanging, h.document, ?_, h.scanning hc, ?_, ?_⟩
  · rw [hlength]
    exact .frame hkind (Nat.lt_succ_self _) h.levels
  · intro _
    exact ⟨hi, hk, h.uncommented hi⟩
  · exact h.reserved.congr rfl (fun _ _ => rfl) hgrows.kept

theorem push_proceeds (hb : m.lexer.Checked) (kind : FrameKind) (fragment : FragmentKind)
    (quote : Quote) (count : ℕ) :
    Keeps (Proceeds (m.opened kind fragment quote)) (m.push kind fragment quote count) := by
  rw [push_eq]
  exact delimiter_proceeds (Grows.opened hb kind fragment quote).2 quote count

theorem push_look
    (hl : LookOk m.source) (h : m.push kind fragment quote count = .ok m') : LookOk m'.source := by
  rw [push_eq] at h
  refine delimiter_look ?_ h
  exact hl

section

variable (h : Ordered d root m bases)
include h

/-- A frame of another kind than a command substitution is opened. -/
theorem Ordered.pushed (hc : m.lexer.command = false)
    (hi : m.lexer.active = true) (hk : m.lexer.kind = .word)
    (hkind : kind ≠ .arithmetic) (hne : kind ≠ .command)
    (hpush : m.push kind fragment quote count = .ok m')
    (hp : Proceeds (m.opened kind fragment quote) m') : Ordered d root m' bases := by
  apply Ordered.word ((h.opened hc hi hk hkind fragment quote).proceeds hp) (hp.active.trans hi)
    (hp.kind.trans hk) (hp.comment.trans (h.uncommented hi)) (hp.command.trans hc)
  · unfold Lexer.inFrame
    rw [hp.frames]
    exact decide_eq_false hne
  · exact push_look h.look hpush

theorem push_ordered (hc : m.lexer.command = false)
    (hi : m.lexer.active = true) (hk : m.lexer.kind = .word)
    (hkind : kind ≠ .arithmetic) (hne : kind ≠ .command) (fragment : FragmentKind) (quote : Quote)
    (count : ℕ) : StepOrdered d root bases (.attempt (m.push kind fragment quote count)) := by
  apply (h.opened hc hi hk hkind fragment quote).attempt
    (push_proceeds h.checked kind fragment quote count) push_failure
  intro m' hpush hp
  exact h.pushed hc hi hk hkind hne hpush hp

/-- The frame of a command substitution is opened, and the lexer waits. -/
theorem Ordered.pushedCommand (hc : m.lexer.command = false)
    (hi : m.lexer.active = true) (hk : m.lexer.kind = .word)
    (hpush : m.push .command .command quote count = .ok m')
    (hp : Proceeds (m.opened .command .command quote) m') :
    Ordered d root (m'.onLexer fun l => { l with command := true }) bases := by
  have hanchored := (h.opened hc hi hk (by decide : FrameKind.command ≠ .arithmetic) .command
    quote).proceeds hp
  have hlook : LookOk m'.source := push_look h.look hpush
  refine ⟨⟨hanchored.hanging, hanchored.document, hanchored.levels, hanchored.single,
    hanchored.armed, ?_⟩, ?_, ?_, ?_, ?_, ?_, hlook⟩
  · exact hanchored.reserved.congr rfl (fun _ _ => rfl) fun _ _ => ⟨rfl, rfl⟩
  · intro hi'
    have hi'' : m'.lexer.active = false := hi'
    rw [hp.active] at hi''
    have hi₃ : m.lexer.active = false := hi''
    rw [hi] at hi₃
    cases hi₃
  · intro hk'
    exact absurd (hp.kind.trans hk) hk'
  · intro hq
    have hq' : m'.lexer.comment = true := hq
    rw [hp.comment] at hq'
    show m'.lexer.active = false
    rw [hp.active]
    exact h.comment hq'
  · intro _
    show m'.lexer.inFrame .command = true
    unfold Lexer.inFrame
    rw [hp.frames]
    rfl
  · intro hc'
    cases hc'

theorem commandOpening_ordered (hc : m.lexer.command = false)
    (hi : m.lexer.active = true) (hk : m.lexer.kind = .word) (quote : Quote) (count : ℕ) :
    StepOrdered d root bases (dollar.commandOpening quote m count) := by
  have hkeep := push_proceeds h.checked .command .command quote count
  have hanchored := h.opened hc hi hk (by decide : FrameKind.command ≠ .arithmetic) .command quote
  unfold dollar.commandOpening
  split
  · rename_i m₁ hpush
    exact hanchored.failed hkeep hpush (push_failure hpush)
  · rename_i m₁ hpush
    rw [hpush] at hkeep
    exact h.pushedCommand hc hi hk hpush hkeep

end

/-- A frame is taken from the stack; the checkpoint of a candidate goes with it. -/
theorem Anchored.popped (h : Anchored d root m bases)
    (hf : m.lexer.frames = frame :: frames) {checkpoints : List Checkpoint}
    (hlevels : Levels frames checkpoints frame.fragment)
    (hreserved : Reserved d bases m.lexer checkpoints m.lexer.raw.length) :
    Anchored d root
      (m.onLexer fun l => { l.finishFragment frame.fragment with
        frames := l.frames.tail, arithmetic := checkpoints }) bases := by
  have hlt : frame.fragment ≤ m.lexer.fragments.length := by
    have hall := h.levels
    rw [hf] at hall
    generalize m.lexer.arithmetic = cs at hall
    cases hall with
    | frame _ hi => exact hi.le
    | candidate _ hi => exact hi.le
  have hsingle := h.single
  rw [hf, tail_cons] at hsingle
  refine ⟨h.hanging, h.document, ?_, ?_, ?_, ?_⟩
  · show Levels m.lexer.frames.tail checkpoints (m.lexer.fragments.modify frame.fragment _).length
    rw [hf, tail_cons, length_modify]
    exact hlevels.mono hlt
  · show ∀ x ∈ m.lexer.frames.tail.tail, x.kind ≠ .command
    rw [hf, tail_cons]
    exact fun x hx => hsingle x (mem_of_mem_tail hx)
  · intro _
    exact h.armed (by rw [hf]; exact cons_ne_nil _ _)
  · refine hreserved.congr rfl (fun _ _ => rfl) ?_
    intro c hc
    obtain ⟨hfragment, hframe⟩ := hlevels.counts c hc
    refine ⟨take_modify hfragment.le _, ?_⟩
    show m.lexer.frames.tail.drop (m.lexer.frames.tail.length - c.frameCount) = _
    rw [hf, tail_cons, length_cons, Nat.succ_sub hframe.le, drop_succ_cons]

theorem inFrame_tail (hf : m.lexer.frames = frame :: frames)
    (hs : ∀ x ∈ m.lexer.frames, x.kind ≠ .command) :
    Lexer.inFrame { m.lexer with frames := m.lexer.frames.tail } .command = false := by
  rw [hf] at hs
  rw [hf, tail_cons]
  cases frames with
  | nil => rfl
  | cons top rest => exact decide_eq_false (hs top (mem_cons_of_mem _ mem_cons_self))

/-- A frame that is no candidate is closed. -/
theorem Ordered.popped (h : Ordered d root m bases) (hc : m.lexer.command = false)
    (hf : m.lexer.frames = frame :: frames)
    (hkind : frame.kind ≠ .arithmetic) (hl : LookOk m.source) :
    Ordered d root
      (m.onLexer fun l => { l.finishFragment frame.fragment with frames := l.frames.tail })
      bases := by
  have hlevels := h.levels
  rw [hf] at hlevels
  have hne : m.lexer.frames ≠ [] := by
    rw [hf]
    exact cons_ne_nil _ _
  obtain ⟨hi, hk, hq⟩ := h.armed hne
  refine .word (h.toAnchored.popped hf (hlevels.pop hkind).1 h.reserved) hi hk hq hc ?_ hl
  exact inFrame_tail hf (h.scanning hc)

theorem pop_ordered (h : Ordered d root m bases) (hc : m.lexer.command = false)
    (hf : m.lexer.frames = frame :: frames)
    (hkind : frame.kind ≠ .arithmetic) (count : ℕ) :
    StepOrdered d root bases (.attempt (m.pop count)) := by
  have hne : m.lexer.frames ≠ [] := by
    rw [hf]
    exact cons_ne_nil _ _
  obtain ⟨hi, hk, hq⟩ := h.armed hne
  have hkeep := delimiter_proceeds h.based frame.quote count
  rw [pop_eq hf]
  cases hdelimiter : m.delimiter frame.quote count with
  | error m₁ => exact h.toAnchored.failed hkeep hdelimiter (delimiter_failure hdelimiter)
  | ok m₁ =>
    rw [hdelimiter] at hkeep
    have hlook := delimiter_look h.look hdelimiter
    have h₁ := h.goes hkeep hi hlook
    exact h₁.popped (hkeep.command.trans hc) (hkeep.frames.trans hf) hkind hlook

theorem pushParameter_ordered (h : Ordered d root m bases) (hc : m.lexer.command = false)
    (hi : m.lexer.active = true) (hk : m.lexer.kind = .word) (quote : Quote) (count : ℕ) :
    StepOrdered d root bases (m.pushParameter quote count) := by
  have hkeep := push_proceeds h.checked .simple .parameter quote count
  have hanchored := h.opened hc hi hk (by decide : FrameKind.simple ≠ .arithmetic) .parameter quote
  unfold pushParameter
  split
  · rename_i m₁ hpush
    exact hanchored.failed hkeep hpush (push_failure hpush)
  · rename_i m₁ hpush
    rw [hpush] at hkeep
    have h₁ := h.pushed hc hi hk (by decide) (by decide) hpush hkeep
    have hframes : m₁.lexer.frames = _ :: m.lexer.frames := hkeep.frames
    exact pop_ordered h₁ (hkeep.command.trans hc) hframes FrameKind.noConfusion 0

/-! ### Candidates -/

/-- A candidate is opened: its checkpoint returns to the word before this round. -/
theorem pushArithmetic_ordered {m₀ : Machine} (h : Ordered d root m bases)
    (hc : m.lexer.command = false) (hi : m.lexer.active = true) (hk : m.lexer.kind = .word)
    (hr : Readies d m₀ m) (hm : InWord m₀)
    (hdraft : Draft d m₀.lexer.document m₀.lexer.raw m₀.lexer.fragments m₀.lexer.frames
      m₀.source.unread m₀.source.final) {second third : ℕ}
    (hs : m₀.step d = m.pushArithmetic quote second third)
    (ho : Ahead m.source.unread [byteOf '$', byteOf '(', byteOf '('] third) :
    StepOrdered d root bases (m.pushArithmetic quote second third) := by
  have halike := hr.alike
  have hchecked : (m.checkpointArithmetic second quote).lexer.Checked := by
    intro c hc
    rcases mem_cons.mp hc with rfl | hc
    · exact ⟨Nat.le_refl _, Nat.le_refl _⟩
    · exact h.checked c hc
  -- The bytes of the opening have been seen, so it is read.
  obtain ⟨m₁, hpush⟩ : ∃ m₁, (m.checkpointArithmetic second quote).push .arithmetic .arithmetic
      quote third = .ok m₁ := by
    obtain ⟨w, rest, hunread, hlen, hspans⟩ := ho
    have h0 : (0 : UInt8) ∉ w := by
      intro hmem
      have := hspans.spells.mem hmem
      revert this
      decide
    rw [push_eq, ← hlen]
    obtain ⟨m₁, hdelimiter, -⟩ := @delimiter_total
      ((m.checkpointArithmetic second quote).opened .arithmetic .arithmetic quote) quote w rest
      hunread h0
    exact ⟨m₁, hdelimiter⟩
  have hkeep := push_proceeds hchecked .arithmetic .arithmetic quote third
  rw [hpush] at hkeep
  have hstep : m₀.step d = .again (m₁.onLexer fun l =>
      { l with arithmetic := l.arithmetic.modifyHead fun c => { c with bodyBegin := l.raw.length } }) := by
    rw [hs]
    unfold pushArithmetic
    rw [hpush]
  have hresult := hs.symm.trans hstep
  rw [hresult]
  have hframes : m₁.lexer.frames =
      { kind := .arithmetic, quote, fragment := m.lexer.fragments.length } :: m.lexer.frames :=
    hkeep.frames
  have hlength : (m.lexer.addFragment .arithmetic quote).fragments.length =
      m.lexer.fragments.length + 1 := length_append
  have hfragments : m.lexer.fragments.length < m₁.lexer.fragments.length := by
    have hle : (m.lexer.addFragment .arithmetic quote).fragments.length ≤ m₁.lexer.fragments.length :=
      hkeep.length
    omega
  have hgrows : Grows (m.checkpointArithmetic second quote) m₁ :=
    (Grows.opened hchecked .arithmetic .arithmetic quote).1.trans hkeep.toGrows
  obtain ⟨w, -, hraw⟩ := hgrows.raw
  have hraw' : m₁.lexer.raw = m.lexer.raw ++ w := hraw
  have hprevious := h.reserved
  have htake : ∀ i ≤ m.lexer.raw.length, m₁.lexer.raw.take i = m.lexer.raw.take i := by
    intro i hi
    rw [hraw', take_append_of_le_length hi]
  have hself := hgrows.kept _ mem_cons_self
  have hfirst : m₁.lexer.fragments.take m.lexer.fragments.length = m.lexer.fragments := by
    refine Eq.trans hself.1 ?_
    show m.lexer.fragments.take m.lexer.fragments.length = _
    rw [take_length]
  have hinner : m₁.lexer.frames.drop (m₁.lexer.frames.length - m.lexer.frames.length) =
      m.lexer.frames := by
    refine Eq.trans hself.2 ?_
    show m.lexer.frames.drop (m.lexer.frames.length - m.lexer.frames.length) = _
    rw [Nat.sub_self, drop_zero]
  have hdocument : m₁.lexer.document = m.lexer.document := hkeep.document
  have harithmetic : m₁.lexer.arithmetic =
      (m.checkpointArithmetic second quote).lexer.arithmetic := hgrows.arithmetic
  have hl : LookOk (m.checkpointArithmetic second quote).source := h.look
  have hl₁ : LookOk m₁.source := push_look hl hpush
  have hq₁ := hkeep.comment.trans (h.uncommented hi)
  refine .word ⟨h.hanging.captures hkeep.parents, hdocument.trans h.document, ?_, ?_, ?_, ?_⟩
    (hkeep.active.trans hi) (hkeep.kind.trans hk) hq₁ (hkeep.command.trans hc) ?_
    hl₁
  · show Levels m₁.lexer.frames (m₁.lexer.arithmetic.modifyHead _) m₁.lexer.fragments.length
    rw [harithmetic, hframes]
    refine Levels.body ?_ _
    exact .candidate rfl hfragments rfl rfl h.levels
  · show ∀ x ∈ m₁.lexer.frames.tail, x.kind ≠ .command
    rw [hframes, tail_cons]
    exact h.scanning hc
  · intro _
    exact ⟨hkeep.active.trans hi, hkeep.kind.trans hk, hq₁⟩
  · show Reserved d bases _ (m₁.lexer.arithmetic.modifyHead _) m₁.lexer.raw.length
    rw [harithmetic]
    refine Reserved.body ?_ _
    have hbeginning : Beginning d m.lexer.document m.lexer.raw m.lexer.fragments m.lexer.frames
        (m.source.unread ++ []) quote := by
      have := Beginning.intro hdraft rfl hm hstep hframes halike.frames rfl []
      rw [hr.unread, halike.document, halike.raw]
      refine Eq.mp ?_ this
      show Beginning d _ _ (m₁.lexer.fragments.take m.lexer.fragments.length) _ _ _ = _
      rw [hfirst]
    rw [append_nil] at hbeginning
    refine .cons rfl ?_ h.hanging.lengths rfl rfl ?_ ?_
    · show m.lexer.raw.length ≤ m₁.lexer.raw.length
      rw [hraw', length_append]
      exact Nat.le_add_right _ _
    · show Beginning d m₁.lexer.document (m₁.lexer.raw.take m.lexer.raw.length)
        (m₁.lexer.fragments.take m.lexer.fragments.length)
        (m₁.lexer.frames.drop (m₁.lexer.frames.length - m.lexer.frames.length)) m.source.unread quote
      rw [hdocument, htake _ (Nat.le_refl _), take_length, hfirst, hinner]
      exact hbeginning
    · refine h.reserved.congr hdocument htake ?_
      intro c hmem
      exact hgrows.kept c (mem_cons_of_mem _ hmem)
  · show m₁.lexer.inFrame .command = false
    unfold Lexer.inFrame
    rw [hframes]
    rfl

/-- A candidate is closed with its checkpoint. -/
theorem popArithmetic_ordered (h : Ordered d root m bases) (hc : m.lexer.command = false)
    (hf : m.lexer.inFrame .arithmetic = true) {c : Checkpoint}
    (ha : m.lexer.arithmetic = c :: previous) (count : ℕ) :
    StepOrdered d root bases (m.popArithmetic previous count) := by
  obtain ⟨frame, frames, hframes, hkind⟩ := inFrame_iff.mp hf
  have hne : m.lexer.frames ≠ [] := by
    rw [hframes]
    exact cons_ne_nil _ _
  obtain ⟨hi, hk, hq⟩ := h.armed hne
  have hkeep := delimiter_proceeds h.based frame.quote count
  unfold popArithmetic
  rw [pop_eq hframes]
  cases hdelimiter : m.delimiter frame.quote count with
  | error m₁ => exact h.toAnchored.failed hkeep hdelimiter (delimiter_failure hdelimiter)
  | ok m₁ =>
    rw [hdelimiter] at hkeep
    have hlook := delimiter_look h.look hdelimiter
    have h₁ := h.goes hkeep hi hlook
    have hframes₁ : m₁.lexer.frames = frame :: frames := hkeep.frames.trans hframes
    have ha₁ : m₁.lexer.arithmetic = c :: previous := hkeep.arithmetic.trans ha
    have hlevels := h₁.levels
    rw [hframes₁, ha₁] at hlevels
    have hreserved := h₁.reserved
    rw [ha₁] at hreserved
    have hinner : Reserved d bases m₁.lexer previous m₁.lexer.raw.length := by
      cases hreserved with
      | cons _ hle _ _ _ _ hrest => exact hrest.mono hle
    have hi₁ : m₁.lexer.active = true := hkeep.active.trans hi
    have hc₁ : m₁.lexer.command = false := hkeep.command.trans hc
    refine .word (h₁.toAnchored.popped hframes₁ (hlevels.popCandidate hkind).1 hinner) hi₁
      (hkeep.kind.trans hk) (hkeep.comment.trans hq) hc₁ ?_ hlook
    exact inFrame_tail hframes₁ (h₁.scanning hc₁)

/-! ### Replays -/

/-- The machine a replay goes back to. -/
theorem rewound_ordered (h : Anchored d root m bases) {c : Checkpoint}
    (ha : m.lexer.arithmetic = c :: previous) :
    Ordered d root (m.rewound c previous) bases ∧ (m.rewound c previous).lexer.active = true ∧
      (m.rewound c previous).lexer.kind = .word ∧
      Beginning d (m.rewound c previous).lexer.document (m.rewound c previous).lexer.raw
        (m.rewound c previous).lexer.fragments (m.rewound c previous).lexer.frames
        (m.rewound c previous).source.unread c.quote := by
  have hlevels := h.levels
  have hreserved := h.reserved
  rw [ha] at hlevels hreserved
  obtain ⟨hfragment, hframe⟩ := hlevels.counts c mem_cons_self
  have hinner := hlevels.rewind
  have hne : m.lexer.frames ≠ [] := by
    intro hnil
    rw [hnil] at hframe
    exact Nat.not_lt_zero _ hframe
  obtain ⟨hi, hk, hq⟩ := h.armed hne
  -- What is left of the frames is below the candidate.
  have hbelow : ∀ x ∈ m.lexer.frames.drop (m.lexer.frames.length - c.frameCount),
      x.kind ≠ .command := by
    intro x hx
    refine h.single x ?_
    rw [← drop_one]
    refine mem_of_mem_drop (i := m.lexer.frames.length - c.frameCount - 1) ?_
    rwa [drop_drop, show 1 + (m.lexer.frames.length - c.frameCount - 1) =
      m.lexer.frames.length - c.frameCount by omega]
  cases hreserved with
  | @cons _ _ _ first rest hcaptures hfirst hbases hcursor hlook hbeginning hprevious =>
    have hraw : (m.rewound c previous).lexer.raw = m.lexer.raw.take first.1 := by
      show m.lexer.raw.take (c.captures.headD (0, {})).1 = _
      rw [hcaptures]
      rfl
    have hlength : (m.lexer.raw.take first.1).length = first.1 := by
      rw [length_take, Nat.min_eq_left hfirst]
    have hframes : (m.lexer.frames.drop (m.lexer.frames.length - c.frameCount)).length =
        c.frameCount := by
      rw [length_drop]
      omega
    refine ⟨.word ⟨?_, h.document, ?_, ?_, ?_, ?_⟩ hi hk hq rfl ?_ (lookOk_none hlook), hi, hk, ?_⟩
    · show Hanging d root (m.parents.zipWith restoreCapture c.captures.tail) bases
      rw [hcaptures]
      exact h.hanging.restore hbases
    · show Levels _ previous (m.lexer.fragments.take c.fragmentCount).length
      rw [length_take, Nat.min_eq_left hfragment.le]
      exact hinner
    · exact fun x hx => hbelow x (mem_of_mem_tail hx)
    · intro _
      exact ⟨hi, hk, hq⟩
    · show Reserved d bases (m.rewound c previous).lexer previous _
      rw [hraw, hlength]
      refine hprevious.congr rfl ?_ ?_
      · intro i hi
        rw [hraw, take_take, Nat.min_eq_left hi]
      · intro c' hc'
        obtain ⟨hfragment', hframe'⟩ := hinner.counts c' hc'
        rw [hframes] at hframe'
        constructor
        · show (m.lexer.fragments.take c.fragmentCount).take c'.fragmentCount = _
          rw [take_take, Nat.min_eq_left hfragment'.le]
        · show (m.lexer.frames.drop (m.lexer.frames.length - c.frameCount)).drop
            ((m.lexer.frames.drop (m.lexer.frames.length - c.frameCount)).length - c'.frameCount) = _
          rw [hframes, drop_drop]
          congr 1
          omega
    · by_contra hin
      obtain ⟨frame, frames, hcons, hkind⟩ := inFrame_iff.mp (by simpa using hin)
      refine hbelow frame ?_ hkind
      have hcons' : m.lexer.frames.drop (m.lexer.frames.length - c.frameCount) = frame :: frames :=
        hcons
      rw [hcons']
      exact mem_cons_self
    · rw [hraw]
      exact hbeginning

/-- A replay keeps the drafts. -/
theorem restore_drafted (h : Anchored d root m bases) {c : Checkpoint}
    (ha : m.lexer.arithmetic = c :: previous) :
    match m.restore c previous with
    | .ok m' => Drafted d root m' bases
    | .error m' => Failed d root m' := by
  obtain ⟨hordered, hi, hk, hbeginning⟩ := rewound_ordered h ha
  have hkeep := push_proceeds hordered.checked .command .command c.quote c.commandLength
  have hanchored := hordered.opened rfl hi hk (by decide : FrameKind.command ≠ .arithmetic)
    .command c.quote
  rw [restore_eq]
  cases hpush : (m.rewound c previous).push .command .command c.quote c.commandLength with
  | error m₁ =>
    exact hanchored.failed hkeep hpush (push_failure hpush)
  | ok m₁ =>
    rw [hpush] at hkeep
    refine ⟨hordered.pushedCommand rfl hi hk hpush hkeep, ?_⟩
    intro _ _
    have hdraft := hbeginning.draft hi hpush
    have hdocument : m₁.lexer.document = (m.rewound c previous).lexer.document := hkeep.document
    rw [← hdocument] at hdraft
    exact hdraft

/-- The lexer at a depth waits, or is the deepest. -/
theorem Anchored.unwind (h : Anchored d root m bases) (depth : ℕ) :
    ∃ bases, Anchored d root (m.unwind depth) bases := by
  have hdrop : ∀ (ls : List Lexer) (bases : List ℕ) (i : ℕ) (l : Lexer) (rest : List Lexer)
      (source : Source), Hanging d root ls bases → ls.drop i = l :: rest →
        ∃ bases, Anchored d root { source, lexer := l, parents := rest } bases := by
    intro ls bases i l rest source hhanging
    induction hhanging generalizing i with
    | nil =>
      intro heq
      rw [drop_nil] at heq
      cases heq
    | @cons x ls base bases hl hd hr h ih =>
      intro heq
      cases i with
      | zero =>
        cases heq
        exact ⟨bases, h, hd, hl.levels, hl.single, fun _ => ⟨hl.active, hl.kind, hl.comment⟩,
          hr.mono hl.le⟩
      | succ i => exact ih i heq
  unfold Machine.unwind
  cases hi : m.depth - depth with
  | zero => exact ⟨bases, h⟩
  | succ i =>
    rw [show m.chain.drop (i + 1) = m.parents.drop i from rfl]
    cases heq : m.parents.drop i with
    | nil => exact ⟨bases, h⟩
    | cons l rest => exact hdrop m.parents bases i l rest m.source h.hanging heq

variable (d root) in
/-- What a replay leaves. -/
def ReplayDrafted (m₀ : Machine) : Replay × Machine → Prop
  | (.replayed, m) => ∃ bases, Drafted d root m bases
  | (.refused, m) => m = m₀
  | (.failed, m) => Failed d root m

theorem replayArithmetic_drafted (h : Anchored d root m bases) (depth : ℕ)
    (error : Option Failure) : ReplayDrafted d root m (m.replayArithmetic depth error) := by
  unfold replayArithmetic
  dsimp only
  split
  · rfl
  · rename_i c previous ha
    split
    · rfl
    · split
      · exact .inr (failAt_dead rfl (by decide))
      · rfl
      · obtain ⟨-, hlexer⟩ := unwind_chain m depth
        rw [← hlexer] at ha
        obtain ⟨bases', hunwound⟩ := h.unwind depth
        have hrestore := restore_drafted hunwound ha
        cases hr : (m.unwind depth).restore c previous with
        | ok m₁ =>
          rw [hr] at hrestore
          exact ⟨bases', hrestore⟩
        | error m₁ =>
          rw [hr] at hrestore
          exact hrestore

/-- A candidate is given up: a round finds it without a failure. -/
theorem giveUp_ordered (h : Ordered d root m bases) (hn : m.source.failure = none)
    (hf : m.lexer.inFrame .arithmetic = true) : StepOrdered d root bases m.giveUp := by
  have hreplay := replayArithmetic_drafted h.toAnchored m.depth none
  -- Without an error to report the replay is not refused.
  have hne : (m.replayArithmetic m.depth none).1 ≠ .refused := by
    have hlexer : m.lexerAt m.depth = m.lexer := by
      unfold lexerAt
      rw [Nat.sub_self]
      rfl
    obtain ⟨frame, frames, hframes, hkind⟩ := inFrame_iff.mp hf
    have hlevels := h.levels
    rw [hframes] at hlevels
    obtain ⟨c, previous, ha⟩ : ∃ c previous, m.lexer.arithmetic = c :: previous := by
      generalize m.lexer.arithmetic = cs at hlevels
      cases hlevels with
      | frame hk => exact absurd hkind hk
      | candidate => exact ⟨_, _, rfl⟩
    have hrefused : m.replayRefused m.lexer c none = some false := by
      unfold replayRefused
      simp
    unfold replayArithmetic
    rw [hlexer]
    dsimp only
    rw [ha]
    dsimp only
    rw [if_neg (by rw [hn]; simp), hrefused]
    dsimp only
    split <;> simp
  unfold giveUp
  generalize m.replayArithmetic m.depth none = answer at hreplay hne
  obtain ⟨replay, m₁⟩ := answer
  cases replay with
  | replayed => exact hreplay
  | refused => exact absurd rfl hne
  | failed => exact hreplay

/-! ### Tokens -/

section

variable (h : Ordered d root m bases)
include h

/-- A published token leaves an empty lexer. -/
theorem publish_ordered (hc : m.lexer.command = false)
    (hf : m.lexer.frames = []) (hq : m.lexer.comment = false) :
    StepOrdered d root bases m.publish := by
  refine .bare h.hanging h.document hf ?_ ?_ ?_ hc h.look
  · exact h.checkpoints hf
  · intro _
    exact ⟨rfl, rfl⟩
  · intro hq'
    have hq'' : m.lexer.comment = true := hq'
    rw [hq] at hq''
    cases hq''

theorem newlineToken_ordered (hi : m.lexer.active = false)
    (hq : m.lexer.comment = false) (hc : m.lexer.command = false) :
    StepOrdered d root bases m.newlineToken := by
  obtain ⟨hstart, hactive⟩ := h.start hi hq hc (fun l => { l with kind := .newline })
    fun l => ⟨l.operatorText, .newline, rfl⟩
  have hkeep := consume_proceeds (m.startToken.onLexer fun l => { l with kind := .newline }) 1
  unfold newlineToken
  split
  · rename_i m₁ hconsume
    exact hstart.toAnchored.failed hkeep hconsume (consume_failure hconsume)
  · rename_i m₁ hconsume
    rw [hconsume] at hkeep
    have h₁ := hstart.goes hkeep hactive (lookOk_none (consume_look hconsume))
    refine publish_ordered h₁ ?_ ?_ (h₁.uncommented (hkeep.active.trans hactive))
    · rw [hkeep.command]
      exact (startToken_lexer m).2.2.2.2.2.2.1.trans hc
    · refine h₁.operator ?_
      rw [hkeep.kind]
      exact TokenKind.noConfusion

theorem startOperator_ordered (hi : m.lexer.active = false)
    (hq : m.lexer.comment = false) (hc : m.lexer.command = false) (byte : UInt8)
    (kind : Lexer → TokenKind) : StepOrdered d root bases (m.startOperator byte kind) := by
  obtain ⟨hstart, hactive⟩ := h.start hi hq hc (fun l => { l with operatorText := [byte], kind := kind l })
    fun l => ⟨[byte], kind l, rfl⟩
  apply hstart.toAnchored.attempt
    (consume_proceeds (m.startToken.onLexer fun l => { l with operatorText := [byte], kind := kind l }) 1)
    consume_failure
  intro m' hconsume hp
  exact hstart.goes hp hactive (lookOk_none (consume_look hconsume))

/-- An operator without frames that changes its kind and text. -/
theorem Ordered.operatorText (hi : m.lexer.active = true)
    (hc : m.lexer.command = false) (hf : m.lexer.frames = []) (f : Lexer → Lexer)
    (hl : ∃ text kind, f m.lexer = { m.lexer with operatorText := text, kind }) :
    Ordered d root (m.onLexer f) bases := by
  obtain ⟨text, kind, heq⟩ := hl
  have hm : m.onLexer f = { m with lexer := { m.lexer with operatorText := text, kind } } :=
    congrArg (fun l => ({ m with lexer := l } : Machine)) heq
  rw [hm]
  refine .bare h.hanging h.document hf (h.checkpoints hf) ?_ h.comment hc h.look
  intro hi'
  have hi'' : m.lexer.active = false := hi'
  rw [hi] at hi''
  cases hi''

end

/-- A round of an operator. -/
def StepApart (m : Machine) : Step → Prop
  | .again m' => m'.lexer.kind ≠ .word ∧ m'.source.failure = m.source.failure ∧
      m'.lexer.command = m.lexer.command
  | .done .more m' => m'.lexer.kind ≠ .word
  | .done (.token t) m' => t.kind ≠ .word ∧ m'.lexer.active = false
  | .done .error _ => True
  | .done _ _ => False

theorem operatorRound_ordered (h : Ordered d root m bases) (hc : m.lexer.command = false)
    (hi : m.lexer.active = true) (hk : m.lexer.kind ≠ .word) {s : Step}
    (hround : OperatorRound d m s) : StepOrdered d root bases s ∧ StepApart m s := by
  have hframes := h.operator hk
  cases hround with
  | more hr =>
    refine ⟨(hr.ordered h hc).1, ?_⟩
    show _ ≠ _
    rw [(hr.alike.active hi).2]
    exact hk
  | @publish m₁ hr hl =>
    obtain ⟨h₁, hc₁⟩ := hr.ordered h hc
    refine ⟨publish_ordered h₁ hc₁ (by rw [hl, hframes]) (h₁.uncommented (hr.alike.active hi).1), ?_, rfl⟩
    intro hw
    have hw' : m₁.lexer.kind = .word := hw
    rw [hl] at hw'
    exact hk hw'
  | @extend m₁ hr hl byte count hp kind hx ho =>
    obtain ⟨h₁, hc₁⟩ := hr.ordered h hc
    have hi₁ := (hr.alike.active hi).1
    have hframes₁ : m₁.lexer.frames = [] := by rw [hl, hframes]
    have h₂ := h₁.operatorText hi₁ hc₁ hframes₁ (fun l => { l with kind }) ⟨_, _, rfl⟩
    have hkeep := delimiter_proceeds h₂.based .none count
    have hop := operators_extend _ (mem_of_find?_eq_some ho)
    unfold extendOperator
    split
    · rename_i m₃ hdelimiter
      exact ⟨h₂.toAnchored.failed hkeep hdelimiter (delimiter_failure hdelimiter), trivial⟩
    · rename_i m₃ hdelimiter
      rw [hdelimiter] at hkeep
      have h₃ := h₂.goes hkeep hi₁ (delimiter_look h₂.look hdelimiter)
      refine ⟨h₃.operatorText (hkeep.active.trans hi₁) (hkeep.command.trans hc₁)
        (hkeep.frames.trans hframes₁) _ ⟨_, _, rfl⟩, ?_, ?_, ?_⟩
      · show m₃.lexer.kind ≠ .word
        rw [hkeep.kind]
        exact hop.1
      · exact (delimiter_reads hdelimiter).failure.trans hr.alike.failure
      · exact hkeep.command.trans hr.alike.command

/-! ### Rounds -/

theorem closes_kind (hc : Closes m kind count) :
    kind ≠ .arithmetic := by
  cases hc <;> decide

theorem opens_kind (ho : Opens d m m₁ kind fragment quote count) :
    kind ≠ .arithmetic ∧ kind ≠ .command := by
  cases ho <;> exact ⟨by decide, by decide⟩

theorem round_ordered (h : Ordered d root m bases) (hc : m.lexer.command = false)
    (hn : m.source.failure = none) (hm : InWord m)
    (hdraft : Draft d m.lexer.document m.lexer.raw m.lexer.fragments m.lexer.frames
      m.source.unread m.source.final)
    (hround : Round d m (m.step d)) : StepOrdered d root bases (m.step d) := by
  generalize hs : m.step d = s at hround ⊢
  cases hround with
  | more hr => exact (hr.ordered h hc).1
  | fail hr l message number position =>
    exact (hr.ordered h hc).1.toAnchored.failAt l message number position
  | @stuck m₁ hr hf ha =>
    -- An open candidate has a checkpoint.
    obtain ⟨frame, frames, hframes, hkind⟩ := inFrame_iff.mp hf
    have hlevels := (hr.ordered h hc).1.levels
    rw [hframes, ha] at hlevels
    cases hlevels with
    | frame hk => exact absurd hkind hk
  | skip hr hi count hskip => exact skip_ordered (hr.ordered h hc).1 hi (hr.ordered h hc).2 count
  | comment hr hi hq rest hb => exact (hr.ordered h hc).1.commented true fun _ => hi
  | piece hr hi kind quote count hcut => exact piece_ordered (hr.ordered h hc).1 hi kind quote count
  | name hr hf value quote count hp hv =>
    obtain ⟨h₁, -⟩ := hr.ordered h hc
    obtain ⟨frame, frames, hframes, -⟩ := inFrame_iff.mp hf
    exact name_ordered h₁ (h₁.armed (by rw [hframes]; exact cons_ne_nil _ _)).1 quote count
  | push hr hi kind fragment quote count ho =>
    obtain ⟨h₁, hc₁⟩ := hr.ordered h hc
    obtain ⟨hkind, hne⟩ := opens_kind ho
    exact push_ordered h₁ hc₁ hi (hr.word hm.word hi) hkind hne fragment quote count
  | parameter hr hi rest hb quote value count hp hv =>
    obtain ⟨h₁, hc₁⟩ := hr.ordered h hc
    exact pushParameter_ordered h₁ hc₁ hi (hr.word hm.word hi) quote count
  | pop hr frame frames hf count hclose =>
    obtain ⟨h₁, hc₁⟩ := hr.ordered h hc
    exact pop_ordered h₁ hc₁ hf (closes_kind hclose) count
  | @candidate m₁ hr hi rest hb quote second third h₂ h₃ =>
    obtain ⟨h₁, hc₁⟩ := hr.ordered h hc
    refine pushArithmetic_ordered h₁ hc₁ hi (hr.word hm.word hi) hr hm hdraft hs ?_
    obtain ⟨m₀, hr₀, hsecond, hthird⟩ := h₃
    have hunread : m₀.source.unread = m₁.source.unread := by rw [hr₀.unread, hr.unread]
    rw [← hunread]
    exact ahead_candidate (hr₀.lookOk h.look) (hunread.trans hb) hsecond hthird
  | expression hr hf c previous ha rest hb count hp =>
    obtain ⟨h₁, hc₁⟩ := hr.ordered h hc
    exact popArithmetic_ordered h₁ hc₁ hf ha count
  | command hr hi rest hb quote count hp =>
    obtain ⟨h₁, hc₁⟩ := hr.ordered h hc
    exact commandOpening_ordered h₁ hc₁ hi (hr.word hm.word hi) quote count
  | giveUp hr hf =>
    exact giveUp_ordered (hr.ordered h hc).1 (hr.alike.failure.trans hn) hf
  | publish hr hi hf =>
    obtain ⟨h₁, hc₁⟩ := hr.ordered h hc
    exact publish_ordered h₁ hc₁ hf (h₁.uncommented hi)
  | operator hr hi hq byte rest hb ho kind hk =>
    obtain ⟨h₁, hc₁⟩ := hr.ordered h hc
    exact startOperator_ordered h₁ hi hq hc₁ byte kind
  | newline hr hi hq rest hb =>
    obtain ⟨h₁, hc₁⟩ := hr.ordered h hc
    exact newlineToken_ordered h₁ hi hq hc₁
  | eof hf hi hp => exact h

/-! ### How a round ends -/

variable (d) in
/-- A round that goes on does so without a failure or a command substitution, and a
word that is published is the word that was read. -/
def StepEnds (m : Machine) : Step → Prop
  | .again m' => m'.source.failure = m.source.failure ∧ m'.lexer.command = m.lexer.command
  | .done .eof m' => m'.lexer.active = false
  | .done (.token t) m' => m'.lexer.active = false ∧
      (t.kind = .word → ∃ m₁, Readies d m m₁ ∧ m₁.lexer.frames = [] ∧ t = m₁.lexer.token)
  | .done _ _ => True

theorem Readies.ends (hr : Readies d m m₁)
    (hreads : ∀ {m'}, r = .ok m' →
      m'.source.failure = m₁.source.failure ∧ m'.lexer.command = m₁.lexer.command) :
    StepEnds d m (.attempt r) := by
  cases r with
  | error m' => trivial
  | ok m' =>
    obtain ⟨hfailure, hcommand⟩ := hreads rfl
    exact ⟨hfailure.trans hr.alike.failure, hcommand.trans hr.alike.command⟩

theorem round_ends {s : Step} (hround : Round d m s) : StepEnds d m s := by
  cases hround with
  | more hr => trivial
  | fail hr l message number position => trivial
  | stuck hr hf ha => trivial
  | skip hr hi count hskip =>
    apply hr.ends
    intro m' hconsume
    exact ⟨(consume_reads hconsume).failure, (consume_reads hconsume).command⟩
  | comment hr hi hq rest hb => exact ⟨hr.alike.failure, hr.alike.command⟩
  | piece hr hi kind quote count hcut =>
    apply hr.ends
    intro m' hpiece
    exact ⟨(piece_reads hpiece).failure, (piece_reads hpiece).command⟩
  | name hr hf value quote count hp hv =>
    apply hr.ends
    intro m' hdelimiter
    exact ⟨(delimiter_reads hdelimiter).failure, (delimiter_reads hdelimiter).command⟩
  | push hr hi kind fragment quote count ho =>
    apply hr.ends
    intro m' hpush
    exact ⟨(push_reads hpush).failure, (push_reads hpush).command⟩
  | @parameter m₁ hr hi rest hb quote value count hp hv =>
    unfold pushParameter
    split
    · trivial
    · rename_i m₂ hpush
      have hreads := push_reads hpush
      have hframes : m₂.lexer.frames = _ :: m₁.lexer.frames := hreads.frames
      apply hr.ends
      intro m₃ hpop
      obtain ⟨hfailure, hcommand, -⟩ := pop_reads hframes hpop
      exact ⟨hfailure.trans hreads.failure, hcommand.trans hreads.command⟩
  | pop hr frame frames hf count hclose =>
    apply hr.ends
    intro m' hpop
    obtain ⟨hfailure, hcommand, -⟩ := pop_reads hf hpop
    exact ⟨hfailure, hcommand⟩
  | @candidate m₁ hr hi rest hb quote second third h₂ h₃ =>
    unfold pushArithmetic
    split
    · trivial
    · rename_i m₂ hpush
      have hreads := push_reads hpush
      exact ⟨hreads.failure.trans hr.alike.failure, hreads.command.trans hr.alike.command⟩
  | @expression m₁ hr hf c previous ha rest hb count hp =>
    obtain ⟨frame, frames, hframes, -⟩ := inFrame_iff.mp hf
    unfold popArithmetic
    split
    · trivial
    · rename_i m₂ hpop
      obtain ⟨hfailure, hcommand, -⟩ := pop_reads hframes hpop
      exact ⟨hfailure.trans hr.alike.failure, hcommand.trans hr.alike.command⟩
  | @command m₁ hr hi rest hb quote count hp =>
    unfold dollar.commandOpening
    split <;> trivial
  | @giveUp m₁ hr hf =>
    unfold Machine.giveUp
    split <;> trivial
  | @publish m₁ hr hi hf => exact ⟨rfl, fun _ => ⟨m₁, hr, hf, rfl⟩⟩
  | @operator m₁ hr hi hq byte rest hb ho kind hk =>
    apply hr.ends
    intro m' hconsume
    refine ⟨(consume_reads hconsume).failure, (consume_reads hconsume).command.trans ?_⟩
    exact (startToken_lexer m₁).2.2.2.2.2.2.1
  | @newline m₁ hr hi hq rest hb =>
    unfold newlineToken
    split
    · trivial
    · rename_i m₂ hconsume
      refine ⟨rfl, ?_⟩
      intro hk
      have hk' : m₂.lexer.kind = .word := hk
      rw [(consume_reads hconsume).kind] at hk'
      cases hk'
  | eof hf hi hp => exact hi

variable (d root bases) in
/-- What a round leaves. -/
def StepDrafted : Step → Prop
  | .again m => Drafted d root m bases
  | .done .error m => Failed d root m
  | .done (.token t) m => Drafted d root m bases ∧
      (t.kind = .word → ∃ unread final, Draft d m.lexer.document t.raw t.fragments [] unread final)
  | .done .replay m => ∃ bases, Drafted d root m bases
  | .done _ m => Drafted d root m bases

theorem Drafted.inWord (h : Drafted d root m bases) (hc : m.lexer.command = false)
    (hw : m.lexer.active = true → m.lexer.kind = .word) : InWord m :=
  ⟨hw, h.idle, h.comment, h.scanning hc, h.look⟩

theorem Drafted.draft (h : Drafted d root m bases)
    (hw : m.lexer.active = true → m.lexer.kind = .word) :
    Draft d m.lexer.document m.lexer.raw m.lexer.fragments m.lexer.frames m.source.unread
      m.source.final := by
  by_cases hi : m.lexer.active = true
  · exact h.word hi (hw hi)
  · obtain ⟨hraw, hfragments, hframes⟩ := h.idle (by simpa using hi)
    rw [hraw, hfragments, hframes]
    exact .start _ _

/-- Between tokens there is no word. -/
theorem Ordered.drafted (h : Ordered d root m bases) (hi : m.lexer.active = false) :
    Drafted d root m bases := by
  refine ⟨h, ?_⟩
  intro hi'
  rw [hi] at hi'
  cases hi'

theorem Ordered.apart (h : Ordered d root m bases) (hk : m.lexer.kind ≠ .word) :
    Drafted d root m bases := ⟨h, fun _ hk' => absurd hk' hk⟩

/-- A round keeps the drafts. -/
theorem step_drafted (h : Drafted d root m bases) (hn : m.source.failure = none)
    (hc : m.lexer.command = false) :
    StepDrafted d root bases (m.step d) ∧
      ∀ m', m.step d = .again m' → m'.source.failure = none ∧ m'.lexer.command = false := by
  rcases step_round (fun hi => (h.idle hi).2.2) h.comment with ⟨hi, hk, hround⟩ | ⟨hw, hround⟩
  · obtain ⟨hordered, hapart⟩ := operatorRound_ordered h.toOrdered hc hi hk hround
    cases hs : m.step d with
    | again m' =>
      rw [hs] at hordered hapart
      refine ⟨hordered.apart hapart.1, ?_⟩
      intro m'' heq
      cases heq
      exact ⟨hapart.2.1.trans hn, hapart.2.2.trans hc⟩
    | done result m' =>
      rw [hs] at hordered hapart
      refine ⟨?_, fun m'' heq => by cases heq⟩
      cases result with
      | error => exact hordered
      | eof => exact hapart.elim
      | token t => exact ⟨Ordered.drafted hordered hapart.2, fun hk => absurd hk hapart.1⟩
      | more => exact Ordered.apart hordered hapart
      | command => exact hapart.elim
      | replay => exact hapart.elim
  · have hm := h.inWord hc hw
    have hdraft := h.draft hw
    have hordered := round_ordered h.toOrdered hc hn hm hdraft hround
    have hends := round_ends hround
    -- The document belongs to the place of a lexer in the chain.
    have hword : ∀ {m' : Machine}, Ordered d root m' bases →
        (m'.lexer.active = true → m'.lexer.kind = .word →
          Draft d m.lexer.document m'.lexer.raw m'.lexer.fragments m'.lexer.frames
            m'.source.unread m'.source.final) → Drafted d root m' bases := by
      intro m' hordered hdraft'
      refine ⟨hordered, ?_⟩
      intro hi hk
      rw [hordered.document, ← h.document]
      exact hdraft' hi hk
    cases hs : m.step d with
    | again m' =>
      rw [hs] at hordered hends
      refine ⟨hword hordered fun hi hk => .round hdraft rfl hm hs hi hk, ?_⟩
      intro m'' heq
      cases heq
      exact ⟨hends.1.trans hn, hends.2.trans hc⟩
    | done result m' =>
      rw [hs] at hordered hends
      refine ⟨?_, fun m'' heq => by cases heq⟩
      cases result with
      | error => exact hordered
      | eof => exact Ordered.drafted hordered hends
      | token t =>
        refine ⟨Ordered.drafted hordered hends.1, ?_⟩
        intro hk
        obtain ⟨m₁, hr, hframes, rfl⟩ := hends.2 hk
        have halike := hr.alike
        have hlength := halike.frames
        rw [hframes, length_nil] at hlength
        refine ⟨m.source.unread, m.source.final, ?_⟩
        have hdocument : m'.lexer.document = (bases.isEmpty && root) :=
          (Ordered.toAnchored hordered).document
        rw [hdocument, ← h.document]
        show Draft d _ m₁.lexer.raw m₁.lexer.fragments [] _ _
        rw [halike.raw, halike.fragments, ← length_eq_zero_iff.mp hlength.symm]
        exact hdraft
      | more => exact hword hordered fun hi hk => .more hdraft rfl hm hs hi hk
      | command => exact hword hordered fun _ _ => .command hdraft rfl hm hs
      | replay => exact hordered

/-! ### The bound on the rounds -/

/-- A byte is read and at most one frame opened, or a frame is closed. -/
def Spent (m m' : Machine) : Prop :=
  m'.source.unread.length < m.source.unread.length ∧
      m'.lexer.frames.length ≤ m.lexer.frames.length + 1 ∨
    m'.source.unread.length ≤ m.source.unread.length ∧
      m'.lexer.frames.length < m.lexer.frames.length

/-- Neither needs the flag of a comment, which counts for one round at most. -/
theorem Spent.rounds_lt (h : Spent m m') : m'.rounds < m.rounds := by
  have hcomment : (if m'.lexer.comment then 0 else 1) ≤ 1 := by split <;> decide
  unfold Machine.rounds
  rcases h with ⟨hunread, hframes⟩ | ⟨hunread, hframes⟩
  · omega
  · omega

theorem Readies.spent (hr : Readies d m m₁) (h : Spent m₁ m') : Spent m m' := by
  unfold Spent at h
  rwa [hr.unread, hr.alike.frames] at h

variable (m) in
/-- A round that is not the last leaves fewer rounds. -/
def StepSpends : Step → Prop
  | .again m' => m'.rounds < m.rounds
  | .done _ _ => True

theorem Readies.spends (hr : Readies d m m₁) (h : ∀ {m'}, r = .ok m' → Spent m₁ m') :
    StepSpends m (.attempt r) := by
  cases r with
  | error m' => trivial
  | ok m' => exact (hr.spent (h rfl)).rounds_lt

theorem Took.unread_length {w : Bytes} (h : Took m m' w) :
    m.source.unread.length = w.length + m'.source.unread.length := by
  rw [h.unread, length_append]

theorem Reads.spent (h : Reads m m')
    (hlength : m.source.unread.length = count + m'.source.unread.length) (hcount : 0 < count) :
    Spent m m' := by
  refine .inl ⟨by omega, ?_⟩
  rw [h.frames]
  exact Nat.le_succ _

section

variable (hi : m.lexer.active = true)
include hi

theorem delimiter_length (h : m.delimiter quote count = .ok m') :
    m.source.unread.length = count + m'.source.unread.length := by
  obtain ⟨-, w, rfl, htook⟩ := delimiter_took (P := fun _ _ => True) hi
    (fun _ _ _ _ => trivial) (fun _ _ _ _ _ _ _ _ => trivial) trivial h
  exact htook.unread_length

theorem push_length (h : m.push kind fragment quote count = .ok m') :
    m.source.unread.length = count + m'.source.unread.length :=
  delimiter_length (m := m.opened kind fragment quote) hi h

theorem pop_length (hf : m.lexer.frames = frame :: frames)
    (h : m.pop count = .ok m') : m.source.unread.length = count + m'.source.unread.length := by
  rw [pop_eq hf] at h
  split at h
  · cases h
  · rename_i m₂ hdelimiter
    cases h
    have hlength := delimiter_length hi hdelimiter
    exact hlength

theorem push_spent (h : m.push kind fragment quote count = .ok m')
    (hcount : 0 < count) : Spent m m' := by
  have hlength := push_length hi h
  refine .inl ⟨by omega, ?_⟩
  rw [(push_reads h).frames]
  exact Nat.le_refl _

theorem pop_spent (hf : m.lexer.frames = frame :: frames)
    (h : m.pop count = .ok m') : Spent m m' := by
  have hlength := pop_length hi hf h
  obtain ⟨-, -, -, -, hframes, -⟩ := pop_reads hf h
  refine .inr ⟨by omega, ?_⟩
  rw [hframes, hf]
  exact Nat.lt_succ_self _

end

/-- A character below 0x80 that a lookahead found is behind at least its own byte. -/
theorem Peeked.pos {wanted : ℕ} {value : UInt8} (hp : Peeked d m wanted value count)
    (h : LookOk m.source) (ha : value.toNat < 128) : 0 < count := by
  obtain ⟨m₀, hr, hpeek⟩ := hp
  obtain ⟨c, -, -, -, -, hanswer⟩ := peek_looked (d := d) (hr.lookOk h) wanted
  obtain ⟨p, -, -, hn⟩ := hanswer value count hpeek
  rw [hn ha]
  exact Nat.succ_pos p

/-- A comment that a round leaves ends at its newline. -/
theorem Readies.uncommented (hr : Readies d m m₁) (hq : m.lexer.comment = true)
    (h : m₁.lexer.comment = false) : m.source.unread.head? = some (byteOf '\n') := by
  induction hr with
  | refl =>
    rw [hq] at h
    cases h
  | look wanted _ ih =>
    rw [peek_lexer] at h
    exact ih h
  | @clear m₁ hnewline hr ih =>
    cases hc : m₁.lexer.comment with
    | false => exact ih hc
    | true => rw [← hr.unread, hnewline hc]
  | @frame m₁ f _ _ ih =>
    obtain ⟨frames, heq⟩ := onFrame_eq m₁.lexer f
    have hkept : (m₁.lexer.onFrame f).comment = false := h
    rw [heq] at hkept
    exact ih hkept
  | start _ hc _ ih => exact ih hc

theorem operatorRound_spends (h : LookOk m.source) (hi : m.lexer.active = true) {s : Step}
    (hround : OperatorRound d m s) : StepSpends m s := by
  cases hround with
  | more hr => trivial
  | publish hr hl => trivial
  | @extend m₁ hr hl byte count hp kind hx ho =>
    -- The byte ends an operator of the table, or it is a NUL, which the table ignores.
    have hascii : byte.toNat < 128 := by
      by_cases hzero : byte = 0
      · rw [hzero]
        decide
      · refine (operators_ascii _ (mem_of_find?_eq_some ho) byte ?_).2.2
        show byte ∈ candidate m.lexer.operatorText byte
        rw [candidate, if_neg hzero]
        exact mem_append_right _ (mem_singleton.mpr rfl)
    have hcount := hp.pos h hascii
    unfold extendOperator
    split
    · trivial
    · rename_i m₂ hdelimiter
      have hlength := delimiter_length (m := m₁.onLexer fun l => { l with kind })
        ((congrArg Lexer.active hl).trans hi) hdelimiter
      exact (hr.spent ((delimiter_reads hdelimiter).spent hlength hcount)).rounds_lt

theorem skips_pos (h : Skips m count) : 0 < count := by cases h <;> decide

theorem cuts_pos (h : Cuts d m fragment count) : 0 < count := by
  cases h with
  | text hw => exact hw
  | escape rest hb hw => exact Nat.add_pos_left Nat.one_pos _
  | continuation rest hb => decide

theorem opens_pos (h : LookOk m.source) {kind : FrameKind} (ho : Opens d m m₁ kind fragment quote count) :
    0 < count := by
  cases ho with
  | single rest hb => decide
  | double rest hb => decide
  | backquote rest hb quote => decide
  | parameter rest hb quote n hp => exact hp.pos h (by decide)
  | dollarSingle rest hb n hp => exact hp.pos h (by decide)
  | simple rest hb quote value n hp hv =>
    refine hp.pos h (nameByte_ascii ?_)
    unfold nameByte
    rw [hv]
    rfl

/-- A comment that was left ended at a newline, and the next begins at a `#`. -/
theorem comment_spends (hr : Readies d m m₁) (hq : m₁.lexer.comment = false) {rest : Bytes}
    (hb : m₁.source.unread = byteOf '#' :: rest) :
    StepSpends m (.again (m₁.onLexer fun l => { l with comment := true })) := by
  have hbefore : m.lexer.comment = false := by
    cases hcomment : m.lexer.comment with
    | false => rfl
    | true =>
      have hnewline := hr.uncommented hcomment hq
      rw [← hr.unread, hb] at hnewline
      exact absurd (Option.some.inj hnewline) (by decide)
  show 4 * m₁.source.unread.length + 2 * m₁.lexer.frames.length + 0 + 1 < m.rounds
  rw [Machine.rounds, hbefore, hr.unread, hr.alike.frames]
  exact Nat.lt_succ_self _

theorem pushParameter_spends (hr : Readies d m m₁) (hi : m₁.lexer.active = true) (quote : Quote)
    (hcount : 0 < count) : StepSpends m (m₁.pushParameter quote count) := by
  unfold pushParameter
  split
  · trivial
  · rename_i m₂ hpush
    have hreads := push_reads hpush
    have hframes : m₂.lexer.frames = _ :: m₁.lexer.frames := hreads.frames
    have hpushed := push_length hi hpush
    -- The frame is closed in the same round, and the name has been read.
    apply hr.spends
    intro m₃ hpop
    have hpopped := pop_length (hreads.active.trans hi) hframes hpop
    obtain ⟨-, -, -, -, hframes', -⟩ := pop_reads hframes hpop
    refine .inl ⟨by omega, ?_⟩
    rw [hframes']
    exact Nat.le_succ _

theorem startOperator_spends (hr : Readies d m m₁) (byte : UInt8) (kind : Lexer → TokenKind) :
    StepSpends m (m₁.startOperator byte kind) := by
  apply hr.spends
  intro m' hconsume
  obtain ⟨w, hlen, htook⟩ := consume_took hconsume
  have hspent := (consume_reads hconsume).spent htook.unread_length (hlen ▸ Nat.one_pos)
  have hframes : (m₁.startToken.onLexer fun l =>
      { l with operatorText := [byte], kind := kind l }).lexer.frames = m₁.lexer.frames :=
    (startToken_lexer m₁).2.2.2.2.1
  unfold Spent at hspent ⊢
  rwa [hframes] at hspent

/-- A round that is not the last reads a byte, closes a frame or enters a comment. -/
theorem round_spends (h : Ordered d root m bases) (hc : m.lexer.command = false) {s : Step}
    (hround : Round d m s) : StepSpends m s := by
  have hlook := h.look
  cases hround with
  | more hr => trivial
  | fail hr l message number position => trivial
  | stuck hr hf ha => trivial
  | skip hr hi count hskip =>
    apply hr.spends
    intro m' hconsume
    obtain ⟨w, hlen, htook⟩ := consume_took hconsume
    exact (consume_reads hconsume).spent htook.unread_length (hlen ▸ skips_pos hskip)
  | comment hr hi hq rest hb => exact comment_spends hr hq hb
  | piece hr hi kind quote count hcut =>
    apply hr.spends
    intro m' hpiece
    obtain ⟨w, finish, hlen, htook, -⟩ := piece_took hpiece
    exact (piece_reads hpiece).spent htook.unread_length (hlen ▸ cuts_pos hcut)
  | @name m₁ hr hf value quote count hp hv =>
    obtain ⟨frame, frames, hframes, -⟩ := inFrame_iff.mp hf
    have hi := ((hr.ordered h hc).1.armed (by rw [hframes]; exact cons_ne_nil _ _)).1
    have hcount := hp.pos hlook (nameByte_ascii hv)
    apply hr.spends
    intro m' hdelimiter
    exact (delimiter_reads hdelimiter).spent (delimiter_length hi hdelimiter) hcount
  | push hr hi kind fragment quote count ho =>
    apply hr.spends
    intro m' hpush
    exact push_spent hi hpush (opens_pos hlook ho)
  | @parameter m₁ hr hi rest hb quote value count hp hv =>
    exact pushParameter_spends hr hi quote (hp.pos hlook (parameter_byte hv).2)
  | pop hr frame frames hf count hclose =>
    have hi := ((hr.ordered h hc).1.armed (by rw [hf]; exact cons_ne_nil _ _)).1
    apply hr.spends
    intro m' hpop
    exact pop_spent hi hf hpop
  | @candidate m₁ hr hi rest hb quote second third h₂ h₃ =>
    obtain ⟨m₀, hr₀, -, hthird⟩ := h₃
    have hcount : 0 < third := Peeked.pos ⟨_, hr₀.look 1, hthird⟩ hlook (by decide)
    unfold pushArithmetic
    split
    · trivial
    · rename_i m₂ hpush
      exact (hr.spent (push_spent (m := m₁.checkpointArithmetic second quote) hi hpush hcount)).rounds_lt
  | @expression m₁ hr hf c previous ha rest hb count hp =>
    obtain ⟨frame, frames, hframes, -⟩ := inFrame_iff.mp hf
    have hi := ((hr.ordered h hc).1.armed (by rw [hframes]; exact cons_ne_nil _ _)).1
    unfold popArithmetic
    split
    · trivial
    · rename_i m₂ hpop
      exact (hr.spent (pop_spent hi hframes hpop)).rounds_lt
  | @command m₁ hr hi rest hb quote count hp =>
    unfold dollar.commandOpening
    split <;> trivial
  | @giveUp m₁ hr hf =>
    unfold Machine.giveUp
    split <;> trivial
  | publish hr hi hf => trivial
  | operator hr hi hq byte rest hb ho kind hk => exact startOperator_spends hr byte kind
  | @newline m₁ hr hi hq rest hb =>
    unfold newlineToken
    split <;> trivial
  | eof hf hi hp => trivial

theorem step_spends (h : Drafted d root m bases) (hc : m.lexer.command = false) :
    StepSpends m (m.step d) := by
  rcases step_round (fun hi => (h.idle hi).2.2) h.comment with ⟨hi, -, hround⟩ | ⟨-, hround⟩
  · exact operatorRound_spends h.look hi hround
  · exact round_spends h.toOrdered hc hround

/-- The bound on the rounds suffices. -/
theorem scanLoop_returns (h : Drafted d root m bases) (hn : m.source.failure = none)
    (hc : m.lexer.command = false) {fuel : ℕ} (hfuel : m.rounds ≤ fuel) :
    scanLoop d fuel m ≠ none := by
  induction fuel generalizing m with
  | zero => exact absurd hfuel (Nat.not_succ_le_zero _)
  | succ fuel ih =>
    obtain ⟨hdrafted, hagain⟩ := step_drafted h hn hc
    have hspends := step_spends h hc
    unfold scanLoop
    cases hround : m.step d with
    | again m₁ =>
      rw [hround] at hdrafted hspends
      obtain ⟨hn₁, hc₁⟩ := hagain m₁ hround
      exact ih hdrafted hn₁ hc₁ (Nat.le_of_lt_succ (Nat.lt_of_lt_of_le hspends hfuel))
    | done result m₁ => exact Option.some_ne_none _

/-! ### The interface -/

theorem scanLoop_drafted (h : Drafted d root m bases) (hn : m.source.failure = none)
    (hc : m.lexer.command = false) (fuel : ℕ) {result : LexResult}
    (hloop : scanLoop d fuel m = some (result, m')) :
    StepDrafted d root bases (.done result m') := by
  induction fuel generalizing m with
  | zero => cases hloop
  | succ fuel ih =>
    obtain ⟨hdrafted, hagain⟩ := step_drafted h hn hc
    unfold scanLoop at hloop
    cases hround : m.step d with
    | again m₁ =>
      rw [hround] at hloop hdrafted
      obtain ⟨hn₁, hc₁⟩ := hagain m₁ hround
      exact ih hdrafted hn₁ hc₁ hloop
    | done result₁ m₁ =>
      rw [hround] at hloop hdrafted
      cases hloop
      exact hdrafted

variable (d root) in
/-- What a call leaves that may fail. -/
def Survives (m : Machine) : Prop := (∃ bases, Rested d root m bases) ∨ Dead m

theorem Failed.survives (h : Failed d root m) : Survives d root m := by
  rcases h with ⟨bases, hanchored, hsome⟩ | hdead
  · refine .inl ⟨bases, hanchored, ?_⟩
    intro hn
    rw [hn] at hsome
    cases hsome
  · exact .inr hdead

theorem Drafted.rested (h : Drafted d root m bases) : Rested d root m bases :=
  ⟨h.toAnchored, fun _ => h⟩

variable (d root bases) in
/-- What `csh_lexer_next` leaves. -/
def AnswerDrafted : LexResult × Machine → Prop
  | (.token t, m) => Drafted d root m bases ∧ (t.kind = .word →
      ∃ unread final, Draft d (bases.isEmpty && root) t.raw t.fragments [] unread final)
  | (_, m) => Survives d root m

theorem StepDrafted.answer {result : LexResult} (h : StepDrafted d root bases (.done result m)) :
    AnswerDrafted d root bases (result, m) := by
  cases result with
  | error => exact Failed.survives h
  | token t =>
    refine ⟨h.1, ?_⟩
    have hword := h.2
    rwa [h.1.document] at hword
  | replay =>
    obtain ⟨bases', h⟩ := h
    exact .inl ⟨bases', h.rested⟩
  | eof => exact .inl ⟨bases, Drafted.rested h⟩
  | more => exact .inl ⟨bases, Drafted.rested h⟩
  | command => exact .inl ⟨bases, Drafted.rested h⟩

theorem nextToken_drafted (h : Rested d root m bases) (depth : ℕ) :
    AnswerDrafted d root bases (m.nextToken d depth) := by
  unfold nextToken
  split
  · exact .inl ⟨bases, h⟩
  · rename_i hfailure
    have hn : m.source.failure = none := by simpa using hfailure
    split
    · exact (h.1.failAt _ _ _ _).survives
    · split
      · exact .inl ⟨bases, h⟩
      · rename_i hcommand
        cases hloop : scanLoop d m.rounds m with
        | none => exact .inl ⟨bases, h⟩
        | some answer => exact (scanLoop_drafted (h.2 hn) hn (by simpa using hcommand) _ hloop).answer

theorem AnswerDrafted.survives {result : LexResult} (h : AnswerDrafted d root bases (result, m)) :
    Survives d root m := by
  cases result with
  | token t => exact .inl ⟨bases, h.1.rested⟩
  | error => exact h
  | replay => exact h
  | eof => exact h
  | more => exact h
  | command => exact h

theorem ReplayDrafted.survives {replay : Replay} (h : ReplayDrafted d root m (replay, m'))
    (hr : Rested d root m bases) : Survives d root m' := by
  cases replay with
  | replayed =>
    obtain ⟨bases', h⟩ := h
    exact .inl ⟨bases', h.rested⟩
  | refused =>
    have heq : m' = m := h
    rw [heq]
    exact .inl ⟨bases, hr⟩
  | failed => exact Failed.survives h

/-- `csh_lexer_next` keeps the drafts, and a word it returns has one. -/
theorem lexerNext_drafted (h : Rested d root m bases) (depth : ℕ) :
    AnswerDrafted d root bases (m.lexerNext d depth) := by
  have hnext := nextToken_drafted h depth
  unfold lexerNext
  split
  · exact .inl ⟨bases, h⟩
  · generalize m.nextToken d depth = answer at hnext
    obtain ⟨result, m₁⟩ := answer
    cases result with
    | error =>
      dsimp only
      split
      · exact hnext
      · rename_i hreplayable
        rcases hnext with ⟨bases', hrested⟩ | hdead
        · have hreplay := replayArithmetic_drafted hrested.1 depth m₁.source.failure
          generalize m₁.replayArithmetic depth m₁.source.failure = answer at hreplay
          obtain ⟨replay, m₂⟩ := answer
          have hsurvives := hreplay.survives hrested
          cases replay with
          | replayed => exact hsurvives
          | refused => exact hsurvives
          | failed => exact hsurvives
        · rw [hdead.lexerAt depth] at hreplayable
          exact absurd rfl hreplayable
    | eof => exact hnext
    | token t => exact hnext
    | more => exact hnext
    | command => exact hnext
    | replay => exact hnext

/-! ### The other calls -/

theorem Refuses.survives (h : Rested d root m bases) (hr : Refuses m m') : Survives d root m' := by
  rcases hr with rfl | ⟨l, message, number, position, rfl⟩
  · exact .inl ⟨bases, h⟩
  · exact (h.1.failAt l message number position).survives

theorem Reserved.feed {l : Lexer} {cs : List Checkpoint} {bound : ℕ}
    (h : Reserved d bases l cs bound) (bytes : Bytes) (final : Bool) :
    Reserved d bases (l.feed bytes final)
      (cs.map fun c => { c with source := c.source.append bytes final }) bound := by
  induction h with
  | nil => exact .nil _
  | @cons c cs bound first rest hc hle hb hcursor hlook ho h ih =>
    refine .cons hc hle hb hcursor hlook ?_ ih
    have hunread : (c.source.append bytes final).unread = c.source.unread ++ bytes := by
      show (c.source.data ++ bytes).drop c.source.cursor = c.source.data.drop c.source.cursor ++ bytes
      rw [hcursor, drop_zero, drop_zero]
    show Beginning d _ _ _ _ (c.source.append bytes final).unread _
    rw [hunread]
    exact ho.feed bytes

theorem Levels.feed {l : Lexer} (h : Levels l.frames l.arithmetic l.fragments.length)
    (bytes : Bytes) (final : Bool) : Levels (l.feed bytes final).frames
      (l.feed bytes final).arithmetic (l.feed bytes final).fragments.length :=
  h.map _ fun _ => ⟨rfl, rfl⟩

theorem Hanging.feed {ls : List Lexer} (h : Hanging d root ls bases) (bytes : Bytes)
    (final : Bool) : Hanging d root (ls.map (Lexer.feed bytes final)) bases := by
  induction h with
  | nil => exact .nil
  | cons hl hd hr h ih =>
    exact .cons ⟨hl.active, hl.kind, hl.comment, hl.command, hl.framed, hl.single,
      hl.levels.feed bytes final, hl.le, hl.draft⟩ hd (hr.feed bytes final) ih

theorem Drafted.feed (h : Drafted d root m bases) (hf : m.source.final = false) (bytes : Bytes)
    (final : Bool) :
    Drafted d root
      { source := m.source.compact.append bytes final, lexer := m.lexer.feed bytes final,
        parents := m.parents.map (Lexer.feed bytes final) } bases := by
  have hunread : (m.source.compact.append bytes final).unread = m.source.unread ++ bytes := rfl
  refine ⟨⟨⟨h.hanging.feed bytes final, h.document, h.levels.feed bytes final, h.single, h.armed,
    h.reserved.feed bytes final⟩, h.idle, h.operator, h.comment, h.command, h.scans, ?_⟩, ?_⟩
  · intro c hlook hoffset
    show Looked (m.source.compact.append bytes final).unread c.positions c.scan
    rw [hunread]
    exact (h.look c hlook hoffset).append bytes
  · intro hi hk
    have hword := h.word hi hk
    rw [hf] at hword
    exact hword.feed bytes final

theorem Drafted.commandBegin (h : Drafted d root m bases) (hc : m.lexer.command = true) :
    Drafted d root { m with lexer := {}, parents := m.lexer :: m.parents }
      (m.lexer.raw.length :: bases) := by
  have hframed := h.command hc
  obtain ⟨frame, frames, hframes, -⟩ := inFrame_iff.mp hframed
  obtain ⟨hi, hk, hq⟩ := h.armed (by rw [hframes]; exact cons_ne_nil _ _)
  refine Ordered.drafted (.bare (.cons ⟨hi, hk, hq, hc, hframed, h.single, h.levels,
    Nat.le_refl _, ?_⟩ h.document h.reserved h.hanging) rfl rfl rfl ?_ ?_ rfl h.look) rfl
  · refine ⟨m.source.unread, m.source.final, ?_⟩
    rw [take_length]
    exact h.word hi hk
  · exact fun _ => ⟨rfl, rfl⟩
  · intro hq
    cases hq

/-- The word around a command substitution goes on behind it. -/
theorem Anchored.commandEnd (h : Anchored d root m bases) (hl : LookOk m.source) {parent : Lexer}
    {rest : List Lexer} (hp : m.parents = parent :: rest)
    (hpop : pop { m with lexer := { parent with command := false }, parents := rest } 0 = .ok m') :
    ∃ bases, Drafted d root m' bases := by
  have hhanging := h.hanging
  rw [hp] at hhanging
  cases hhanging with
  | @cons _ _ base bs hhalted hdocument hreserved hrest =>
    obtain ⟨frame, frames, hframes, hkind⟩ := inFrame_iff.mp hhalted.framed
    have hne : frame.kind ≠ .arithmetic := by
      rw [hkind]
      decide
    have hlevels := hhalted.levels
    have hsingle := hhalted.single
    rw [hframes] at hlevels
    rw [hframes, tail_cons] at hsingle
    obtain ⟨unread, final, hdraft⟩ := hhalted.draft
    have hanchored : Anchored d root { m with lexer := parent, parents := rest } bs :=
      ⟨hrest, hdocument, hhalted.levels, hhalted.single,
        fun _ => ⟨hhalted.active, hhalted.kind, hhalted.comment⟩, hreserved.mono hhalted.le⟩
    have hpopped := hanchored.popped hframes (hlevels.pop hne).1 hanchored.reserved
    rw [pop_eq hframes] at hpop
    cases hpop
    refine ⟨bs, Ordered.word ⟨hpopped.hanging, hpopped.document, hpopped.levels, hpopped.single,
      hpopped.armed, ?_⟩ hhalted.active hhalted.kind hhalted.comment rfl ?_ hl, ?_⟩
    · exact hpopped.reserved.congr rfl (fun _ _ => rfl) fun _ _ => ⟨rfl, rfl⟩
    · show Lexer.inFrame { parent with frames := parent.frames.tail } .command = false
      rw [hframes, tail_cons]
      cases frames with
      | nil => rfl
      | cons top rest => exact decide_eq_false (hsingle top mem_cons_self)
    · intro _ _
      show Draft d parent.document parent.raw (parent.fragments.modify frame.fragment _)
        parent.frames.tail m.source.unread m.source.final
      rw [hframes] at hdraft ⊢
      have hinside := hdraft.inside hkind (parent.raw.drop base) m.source.unread m.source.final
      rw [take_append_drop] at hinside
      exact hinside.close hkind parent.spellingPosition

/-- A lexer between tokens that forgot the last one, on another tape. -/
theorem Ordered.forget (h : Ordered d root m bases) {s : Source} (hl : LookOk s) :
    Ordered d root { m with source := s, lexer := { m.lexer with last := none } } bases where
  toAnchored := ⟨h.hanging, h.document, h.levels, h.single, h.armed,
    h.reserved.congr rfl (fun _ _ => rfl) fun _ _ => ⟨rfl, rfl⟩⟩
  toTidy := ⟨h.idle, h.operator, h.comment, h.command, h.scans, hl⟩

theorem aliasPush_drafted (h : Rested d root m bases) (depth : ℕ) (token : Token)
    (name value : Bytes) : Survives d root (m.aliasPush depth token name value).2 := by
  unfold aliasPush
  split
  · exact .inl ⟨bases, h⟩
  · rename_i hfailure
    split
    · exact (h.1.failAt _ _ _ _).survives
    · rename_i hguard
      have hdelimited : m.delimited token = true := by
        by_contra hne
        exact hguard (.inr (.inr (.inl (by simpa using hne))))
      have hi : m.lexer.active = false := by
        unfold delimited at hdelimited
        rw [Bool.and_eq_true] at hdelimited
        simpa using hdelimited.1
      have hdrafted := h.2 (by simpa using hfailure)
      exact .inl ⟨bases, (Ordered.drafted (hdrafted.toOrdered.forget (lookOk_none rfl)) hi).rested⟩

theorem skipRaw_drafted (h : Rested d root m bases) (depth length : ℕ) :
    Survives d root (m.skipRaw depth length).2 := by
  unfold skipRaw
  split
  · exact .inl ⟨bases, h⟩
  · rename_i hfailure
    split
    · exact (h.1.failAt _ _ _ _).survives
    · rename_i hguard
      simp only [not_or] at hguard
      have hi : m.lexer.active = false := by simpa using hguard.2.1
      have hdrafted := h.2 (by simpa using hfailure)
      have hforgot := hdrafted.toOrdered.forget hdrafted.look
      have hc : m.lexer.command = false := by
        by_contra hcommand
        obtain ⟨frame, frames, hframes, -⟩ := inFrame_iff.mp (hdrafted.command (by simpa using hcommand))
        rw [(hdrafted.idle hi).2.2] at hframes
        cases hframes
      have hskip := skip_ordered hforgot hi hc length
      cases hconsume : (m.onLexer fun l => { l with last := none }).consume length with
      | error m₁ =>
        rw [show ({ m with source := m.source, lexer := { m.lexer with last := none } } : Machine) =
          m.onLexer fun l => { l with last := none } from rfl, hconsume] at hskip
        exact Failed.survives hskip
      | ok m₁ =>
        rw [show ({ m with source := m.source, lexer := { m.lexer with last := none } } : Machine) =
          m.onLexer fun l => { l with last := none } from rfl, hconsume] at hskip
        have hi₁ : m₁.lexer.active = false := (consume_reads hconsume).active.trans hi
        exact .inl ⟨bases, (Ordered.drafted hskip hi₁).rested⟩

theorem followsRedirection_drafted (h : Rested d root m bases) :
    Survives d root (m.followsRedirection d).2 := by
  rw [Session.followsRedirection_eq]
  obtain ⟨c, heq⟩ := peek_eq (d := d) m 0
  have hpeek : ∀ hl : LookOk m.source, LookOk (m.peek d 0).2.source := fun hl => hl.peek 0
  rw [heq] at hpeek ⊢
  refine .inl ⟨bases, ⟨h.1.hanging, h.1.document, h.1.levels, h.1.single, h.1.armed,
    h.1.reserved⟩, ?_⟩
  intro hn
  have hdrafted := h.2 hn
  exact ⟨hdrafted.toOrdered.looked (hpeek hdrafted.look), hdrafted.word⟩

/-- Only the deepest lexer returns tokens. -/
theorem lexerNext_depth {depth : ℕ} {t : Token} (h : (m.lexerNext d depth).1 = .token t) :
    depth = m.depth := by
  by_contra hne
  unfold lexerNext at h
  split at h
  · cases h
  · rename_i hfailure
    have hnext : (m.nextToken d depth).1 = .error := by
      unfold nextToken
      rw [if_neg hfailure, if_pos hne]
    generalize m.nextToken d depth = answer at h hnext
    obtain ⟨result, m₁⟩ := answer
    cases hnext
    dsimp only at h
    split at h
    · cases h
    · split at h <;> cases h

/-! ### Runs -/

namespace Session

variable {s : Session}

theorem perform_survives (h : Survives d root s.machine) (call : Call) :
    Survives d root (s.perform d call).machine := by
  rcases h with ⟨bases, hs⟩ | hdead
  · cases call with
    | feed bytes final =>
      rw [Session.perform]
      rcases feed_cases s.machine bytes final with ⟨m', heq, hrefuse⟩ | ⟨hnone, hfinal, heq⟩
      · rw [heq]
        exact Refuses.survives hs hrefuse
      · rw [heq]
        exact .inl ⟨bases, ((hs.2 hnone).feed hfinal bytes final).rested⟩
    | next depth =>
      have hanswer := lexerNext_drafted hs depth
      rw [Session.perform]
      generalize s.machine.lexerNext d depth = answer at hanswer ⊢
      obtain ⟨result, m⟩ := answer
      have hsurvives := hanswer.survives
      cases result <;> exact hsurvives
    | commandBegin depth =>
      rw [Session.perform]
      rcases commandBegin_cases s.machine depth with ⟨m', heq, hrefuse⟩ | ⟨hnone, -, hcommand, heq⟩
      · rw [heq]
        exact Refuses.survives hs hrefuse
      · rw [heq]
        exact .inl ⟨_, ((hs.2 hnone).commandBegin hcommand).rested⟩
    | commandEnd depth closing =>
      rw [Session.perform]
      rcases commandEnd_cases s.machine depth closing with
        ⟨m', heq, hrefuse⟩ | ⟨parent, rest, m', hnone, hp, -, -, -, hpop, heq⟩
      · rw [heq]
        exact Refuses.survives hs hrefuse
      · rw [heq]
        obtain ⟨bases', hdrafted⟩ := hs.1.commandEnd (hs.2 hnone).look hp hpop
        exact .inl ⟨bases', hdrafted.rested⟩
    | replay depth error =>
      have hreplay := replayArithmetic_drafted hs.1 depth error
      rw [Session.perform]
      generalize s.machine.replayArithmetic depth error = answer at hreplay ⊢
      obtain ⟨replay, m⟩ := answer
      have hsurvives := hreplay.survives hs
      cases replay <;> exact hsurvives
    | aliasPush depth token name value => exact aliasPush_drafted hs depth token name value
    | skipRaw depth length =>
      have hskip := skipRaw_drafted hs depth length
      rw [Session.perform]
      generalize s.machine.skipRaw depth length = answer at hskip ⊢
      obtain ⟨success, m⟩ := answer
      cases success <;> exact hskip
    | followsRedirection => exact followsRedirection_drafted hs
  · obtain ⟨m, heq, hdead'⟩ := perform_dead (d := d) hdead call
    rw [heq]
    exact .inr hdead'

theorem run_survives (h : Survives d root s.machine) (calls : List Call) :
    Survives d root (s.run d calls).machine := by
  induction calls generalizing s with
  | nil => exact h
  | cons call calls ih => exact ih (perform_survives h call)

theorem start_survives (d : Decoder) (name : Bytes) (origin : Position) (document : Bool) :
    Survives d document (start name origin document).machine := by
  refine .inl ⟨[], Drafted.rested (Ordered.drafted (.bare .nil rfl rfl rfl ?_ ?_ rfl ?_) rfl)⟩
  · exact fun _ => ⟨rfl, rfl⟩
  · intro hq
    cases hq
  · exact lookOk_none rfl

/-- Whatever a run has done, the loop of `next_token` ends within its bound. -/
theorem rounds_suffice {name : Bytes} {origin : Position} {document : Bool} {calls : List Call}
    (hn : ((start name origin document).run d calls).machine.source.failure = none)
    (hc : ((start name origin document).run d calls).machine.lexer.command = false) :
    let m := ((start name origin document).run d calls).machine
    scanLoop d m.rounds m ≠ none := by
  have hrun := run_survives (start_survives d name origin document) calls
  generalize ((start name origin document).run d calls).machine = m at hn hc hrun
  rcases hrun with ⟨bases, hrested⟩ | hdead
  · exact scanLoop_returns (hrested.2 hn) hn hc (Nat.le_refl _)
  · have hfailed := hdead.1
    rw [hn] at hfailed
    cases hfailed

/-- Every word that a run returns has a draft, whatever was substituted in the run. -/
theorem words_drafted {name : Bytes} {origin : Position} {document : Bool} {calls : List Call}
    {depth : ℕ} {t : Token}
    (hnext : (((start name origin document).run d calls).machine.lexerNext d depth).1 = .token t)
    (hk : t.kind = .word) :
    ∃ unread final, Draft d (decide (depth = 0) && document) t.raw t.fragments [] unread final := by
  have hrun := run_survives (start_survives d name origin document) calls
  generalize ((start name origin document).run d calls).machine = m at hnext hrun
  rcases hrun with ⟨bases, hrested⟩ | hdead
  · have hanswer := lexerNext_drafted hrested depth
    generalize hpair : m.lexerNext d depth = answer at hnext hanswer
    obtain ⟨result, m'⟩ := answer
    cases hnext
    have hdepth : depth = m.depth := lexerNext_depth (by rw [hpair])
    have hempty : bases.isEmpty = decide (depth = 0) := by
      rw [hdepth]
      unfold Machine.depth
      have hhanging := hrested.1.hanging
      generalize m.parents = ls at hhanging
      cases hhanging with
      | nil => rfl
      | cons => rfl
    rw [← hempty]
    exact hanswer.2 hk
  · unfold lexerNext at hnext
    rw [if_pos hdead.1] at hnext
    cases hnext

end Session

end Lexical
end CShell
