import CShell.Lexer.Reading

/-!
# Reading pieces

What one round of the scanner does to the word it is reading when it takes a piece:
the bytes go behind the spelling, and a fragment is made for them or the last text
fragment is made longer.

## Main definitions

* `Pending` — what the scanner holds of a word it is reading or about to start.
* `Beyond` — the tape behind a round.
* `Reaches` — rounds that lead from one machine to another.

## Main results

* `piece_join`, `piece_new` — the piece goes on with the last text, or is a fragment.
* `step_pending` — a round depends on the width of the character.

## References

`src/lexer.c` (`piece`, `next_token`).
-/

namespace CShell
namespace Quoting

open Lexical Machine

variable {d : Decoder} {m m' : Machine}

/-- What the scanner holds of a word of a document, or of an ordinary word, that it is
reading or about to start. -/
structure Pending (m : Machine) (document : Bool) (raw : Bytes) (fragments : List Fragment)
    (frames : List Frame) : Prop where
  raw : m.lexer.raw = raw
  fragments : m.lexer.fragments = fragments
  frames : m.lexer.frames = frames
  comment : m.lexer.comment = false
  document : m.lexer.document = document
  kind : m.lexer.active = true → m.lexer.kind = .word

/-- The tape behind a round that read up to `unread`. -/
structure Beyond (m m' : Machine) (unread : Bytes) : Prop where
  unread : m'.source.unread = unread
  final : m'.source.final = m.source.final
  active : m'.lexer.active = true
  depth : m'.depth = m.depth

theorem Beyond.trans {m'' : Machine} {unread unread' : Bytes} (h : Beyond m m' unread)
    (h' : Beyond m' m'' unread') : Beyond m m'' unread' :=
  ⟨h'.unread, h'.final.trans h.final, h'.active, h'.depth.trans h.depth⟩

theorem consume_word {w rest : Bytes} (hb : m.source.unread = w ++ rest) (h0 : NulFree w)
    (hi : m.lexer.active = true) :
    ∃ m' position, m.consume w.length = .ok m' ∧ Beyond m m' rest ∧
      m'.lexer = { m.lexer with raw := m.lexer.raw ++ w, spellingPosition := position } := by
  obtain ⟨m', hconsume, hunread⟩ := consume_total hb h0
  obtain ⟨w', hlen, htook⟩ := consume_took hconsume
  obtain ⟨raw, position, hlexer⟩ := consume_lexer _ hconsume
  have hreads := consume_reads hconsume
  -- the bytes read are the ones at the front of the tape
  have hw : w' = w := by
    have happ := htook.unread
    rw [hb, hunread] at happ
    exact (List.append_cancel_right happ).symm
  have hraw : raw = m.lexer.raw ++ w := by
    have hr := htook.raw
    rw [if_pos hi, hw, hlexer] at hr
    exact hr
  refine ⟨m', position, hconsume, ⟨hunread, hreads.final, hreads.active.trans hi, hreads.parents⟩, ?_⟩
  rw [hlexer, hraw]

/-- A round at a byte of a word: it depends on the width of the character. -/
theorem step_pending {document : Bool} {raw : Bytes} {fragments : List Fragment}
    {frames : List Frame} (h : Pending m document raw fragments frames) {byte : UInt8} {rest : Bytes}
    (hb : m.source.unread = byte :: rest) (h0 : byte ≠ 0) (hs : m.lexer.inFrame .simple = false) :
    m.step d =
      if d.characterLength m.source.unread m.source.final = 0 then .done .more m
      else if 1 < d.characterLength m.source.unread m.source.final then
        m.wideStep (d.characterLength m.source.unread m.source.final)
      else m.byteStep d byte := by
  have hkind : ¬ (m.lexer.active = true ∧ m.lexer.kind ≠ .word) := fun hk => hk.2 (h.kind hk.1)
  have hget : m.source.data.getD m.source.cursor 0 = byte := by
    have hhead := head_unread (m := m) (by rw [hb]; simp)
    rw [hb] at hhead
    exact (List.cons.inj hhead).1.symm
  have hsame : m.onLexer (fun l => { l with comment := false }) = m := by
    have hl : ({ m.lexer with comment := false } : Lexer) = m.lexer := by
      rw [← h.comment]
    rw [onLexer, hl]
  unfold step
  rw [if_neg hkind, if_neg (by rw [hb]; simp)]
  simp only [hget, h0, if_false, h.comment, Bool.false_eq_true, false_and, hsame, hs]

/-! ### Text -/

section Piece

variable {document : Bool} {raw : Bytes} {fs : List Fragment} {frames : List Frame}

/-- A piece of the word, whatever becomes of the fragments. -/
theorem Pending.piece (h : Pending m document raw fs frames) (hi : m.lexer.active = true)
    (kind : FragmentKind) (quote : Quote) {w rest : Bytes} (hb : m.source.unread = w ++ rest)
    (h0 : NulFree w) :
    ∃ m' finish, m.piece kind quote w.length = .ok m' ∧ Beyond m m' rest ∧
      Pending m' document (raw ++ w)
        (if (decide (kind = .text) && m.lexer.extendsText quote) = true then
          fs.modify (fs.length - 1) fun f => { f with stop := raw.length + w.length, finish }
        else fs ++ [m.lexer.pieceFragment kind quote (raw.length + w.length) finish]) frames := by
  obtain ⟨m', hpiece, hunread⟩ := @piece_total m kind quote w rest hb h0
  obtain ⟨w', finish, hlen, htook, hfragments⟩ := piece_took hpiece
  have hreads := piece_reads hpiece
  -- the bytes read are the ones at the front of the tape
  have hw : w' = w := by
    have happ := htook.unread
    rw [hb, hunread] at happ
    exact (List.append_cancel_right happ).symm
  have hraw : m'.lexer.raw = raw ++ w := by
    rw [htook.raw, if_pos hi, hw, h.raw]
  rw [hraw, h.fragments, List.length_append] at hfragments
  obtain ⟨_, _, _, -, hlexer⟩ := hreads.lexer
  refine ⟨m', finish, hpiece, ⟨hunread, hreads.final, hreads.active.trans hi, hreads.parents⟩,
    hraw, hfragments, hreads.frames.trans h.frames, ?_, ?_, fun _ => hreads.kind.trans (h.kind hi)⟩
  · rw [hlexer]; exact h.comment
  · rw [hlexer]; exact h.document

/-- A piece of text that continues the last fragment. -/
theorem Pending.join {f : Fragment} {quote : Quote} (h : Pending m document raw (fs ++ [f]) frames)
    (hi : m.lexer.active = true) (hkind : f.kind = .text) (hquote : f.quote = quote)
    (hparent : f.parent = m.lexer.parentFragment) (hstop : f.stop = raw.length) {w rest : Bytes}
    (hb : m.source.unread = w ++ rest) (h0 : NulFree w) :
    ∃ m' finish, m.piece .text quote w.length = .ok m' ∧ Beyond m m' rest ∧
      Pending m' document (raw ++ w) (fs ++ [{ f with stop := raw.length + w.length, finish }])
        frames := by
  obtain ⟨m', finish, hpiece, hbeyond, hholds⟩ := h.piece hi .text quote hb h0
  have hextends : m.lexer.extendsText quote = true := by
    unfold Lexer.extendsText
    rw [h.fragments, List.getLast?_concat]
    simp [hkind, hquote, hparent, hstop, h.raw]
  rw [hextends, if_pos (by simp), List.length_append, List.length_singleton,
    Nat.add_sub_cancel, modify_concat] at hholds
  exact ⟨m', finish, hpiece, hbeyond, hholds⟩

/-- A piece that makes a fragment of its own. -/
theorem Pending.fresh {kind : FragmentKind} {quote : Quote} (h : Pending m document raw fs frames)
    (hi : m.lexer.active = true)
    (hnew : (decide (kind = .text) && m.lexer.extendsText quote) = false) {w rest : Bytes}
    (hb : m.source.unread = w ++ rest) (h0 : NulFree w) :
    ∃ m' start finish, m.piece kind quote w.length = .ok m' ∧ Beyond m m' rest ∧
      Pending m' document (raw ++ w) (fs ++ [⟨kind, quote, m.lexer.parentFragment, raw.length,
        raw.length + w.length, start, finish⟩]) frames := by
  obtain ⟨m', finish, hpiece, hbeyond, hholds⟩ := h.piece hi kind quote hb h0
  rw [hnew, if_neg (by simp), Lexer.pieceFragment, h.raw] at hholds
  exact ⟨m', _, finish, hpiece, hbeyond, hholds⟩

theorem Pending.startWord (h : Pending m document raw fs frames) :
    Pending m.startWord document raw fs frames ∧ Beyond m m.startWord m.source.unread := by
  unfold Machine.startWord
  by_cases hi : m.lexer.active = true
  · rw [if_pos hi]
    exact ⟨h, rfl, rfl, hi, rfl⟩
  · rw [if_neg hi]
    unfold startToken onLexer
    refine ⟨?_, rfl, rfl, ?_, rfl⟩
    · cases m.source.aliases with
      | nil => exact ⟨h.raw, h.fragments, h.frames, h.comment, h.document, fun _ => rfl⟩
      | cons top rest => exact ⟨h.raw, h.fragments, h.frames, h.comment, h.document, fun _ => rfl⟩
    · cases m.source.aliases <;> rfl

/-- An opening delimiter of one byte. -/
theorem Pending.push (h : Pending m document raw fs frames) (hi : m.lexer.active = true)
    (kind : FrameKind) (fragment : FragmentKind) (quote : Quote) {byte : UInt8} {rest : Bytes}
    (hb : m.source.unread = byte :: rest) (h0 : byte ≠ 0) :
    ∃ m' start, m.push kind fragment quote 1 = .ok m' ∧ Beyond m m' rest ∧
      Pending m' document (raw ++ [byte])
        (fs ++ [⟨fragment, quote, m.lexer.parentFragment, raw.length, raw.length, start, start⟩])
        (⟨kind, quote, fs.length, 0, 0⟩ :: frames) := by
  have hunread : (m.opened kind fragment quote).source.unread = [byte] ++ rest := hb
  have hactive : (m.opened kind fragment quote).lexer.active = true := hi
  obtain ⟨m', position, hconsume, hread, hlexer⟩ :=
    consume_word hunread (by simpa [NulFree] using Ne.symm h0) hactive
  refine ⟨m', m.lexer.spellingPosition, ?_, ?_, ?_⟩
  · rw [push_eq]
    exact hconsume
  · exact ⟨hread.unread, hread.final, hread.active, hread.depth⟩
  · constructor
    · rw [hlexer]
      show m.lexer.raw ++ [byte] = _
      rw [h.raw]
    · rw [hlexer]
      show m.lexer.fragments ++ [_] = _
      rw [h.fragments, h.raw]
    · rw [hlexer]
      show _ :: m.lexer.frames = _
      rw [h.frames, h.fragments]
    · rw [hlexer]; exact h.comment
    · rw [hlexer]; exact h.document
    · intro _
      rw [hlexer]
      exact h.kind hi

/-- A closing delimiter of one byte. -/
theorem Pending.pop {more : List Fragment} {q : Fragment} {frame : Frame}
    (h : Pending m document raw (fs ++ q :: more) (frame :: frames)) (hi : m.lexer.active = true)
    (hframe : frame.fragment = fs.length) {byte : UInt8} {rest : Bytes}
    (hb : m.source.unread = byte :: rest) (h0 : byte ≠ 0) :
    ∃ m' finish, m.pop 1 = .ok m' ∧ Beyond m m' rest ∧
      Pending m' document (raw ++ [byte]) (fs ++ { q with stop := raw.length + 1, finish } :: more)
        frames := by
  obtain ⟨m₁, position, hconsume, hbeyond, hlexer⟩ :=
    consume_word (w := [byte]) (by rw [hb]; rfl) (by simpa [NulFree] using Ne.symm h0) hi
  have hpop := pop_eq h.frames 1
  rw [show m.delimiter frame.quote 1 = m.consume [byte].length from rfl, hconsume, hframe] at hpop
  refine ⟨m₁.onLexer fun l => { l.finishFragment fs.length with frames := l.frames.tail }, position,
    hpop, ?_, ?_⟩
  · exact ⟨hbeyond.unread, hbeyond.final, hbeyond.active, hbeyond.depth⟩
  · constructor
    · show m₁.lexer.raw = _
      rw [hlexer, h.raw]
    · show m₁.lexer.fragments.modify fs.length _ = _
      rw [hlexer, h.fragments, h.raw]
      simp [List.modify_eq_take_cons_drop]
    · show m₁.lexer.frames.tail = _
      rw [hlexer, h.frames]
      rfl
    · show m₁.lexer.comment = _
      rw [hlexer]; exact h.comment
    · show m₁.lexer.document = _
      rw [hlexer]; exact h.document
    · intro _
      show m₁.lexer.kind = _
      rw [hlexer]; exact h.kind hi

end Piece

theorem characterLength_ascii {byte : UInt8} (h : byte < 0x80) (rest : Bytes) (final : Bool) :
    d.characterLength (byte :: rest) final = 1 := by
  simp [Decoder.characterLength, h]

/-! ### Rounds -/

/-- As many rounds of the scanner lead from one machine to another. -/
inductive Reaches (d : Decoder) : ℕ → Machine → Machine → Prop
  | refl (m : Machine) : Reaches d 0 m m
  | step {k : ℕ} {m m₁ m' : Machine} (h : m.step d = .again m₁) (h' : Reaches d k m₁ m') :
      Reaches d (k + 1) m m'

theorem Reaches.trans {j k : ℕ} {m'' : Machine} (h : Reaches d j m m') (h' : Reaches d k m' m'') :
    Reaches d (j + k) m m'' := by
  induction h with
  | refl m => rwa [Nat.zero_add]
  | step hs _ ih => rw [Nat.add_right_comm]; exact .step hs (ih h')

theorem Reaches.scanLoop {k : ℕ} (h : Reaches d k m m') (n : ℕ) :
    scanLoop d (k + n) m = scanLoop d n m' := by
  induction h with
  | refl m => rw [Nat.zero_add]
  | @step k m m₁ m' hs _ ih =>
    rw [Nat.add_right_comm, Machine.scanLoop, hs]
    exact ih

end Quoting
end CShell
