import CShell.Expand.Inert
import CShell.Quoting.Pieces

/-!
# Reading escaped text

A text in which a backslash was put before every byte that is active somewhere, read
by the scanner in a place where just these bytes are active: every escaped byte is a
fragment of its own, and the text between two of them is one fragment.  The places
are the top level of a here-document and the inside of backquotes.

## Main definitions

* `escapeBytes` — the escaped text.
* `Decoder.AsciiClean` — no byte below 0x80 is in a longer character, finished or not.
* `Morsels` — fragments of text and escapes, with what they spell and stand for.
* `Region` — a place whose active bytes are known.

## Main results

* `Region.reaches` — **escaped text is read as morsels that stand for the text.**

## References

`src/lexer.c` (`next_token`).
-/

namespace CShell

/-- No byte below 0x80 is part of a longer character, finished or not, as in the C
locale and in UTF-8. -/
structure Decoder.AsciiClean (d : Decoder) : Prop where
  complete : d.AsciiSafe
  partly : ∀ text, d.mbrlen text = .incomplete → ∀ byte ∈ text, ¬byte < 0x80

namespace Quoting

open Lexical Machine List

variable {d : Decoder} {m m' : Machine} {p : UInt8 → Bool}

/-! ### Escaped text -/

/-- A backslash before every byte of a kind. -/
def escapeBytes (p : UInt8 → Bool) (text : Bytes) : Bytes :=
  text.flatMap fun byte => if p byte then [byteOf '\\', byte] else [byte]

@[simp] theorem escapeBytes_nil : escapeBytes p [] = [] := rfl

theorem escapeBytes_active {byte : UInt8} (h : p byte = true) (text : Bytes) :
    escapeBytes p (byte :: text) = byteOf '\\' :: byte :: escapeBytes p text := by
  simp [escapeBytes, h]

theorem escapeBytes_plain {byte : UInt8} (h : p byte = false) (text : Bytes) :
    escapeBytes p (byte :: text) = byte :: escapeBytes p text := by
  simp [escapeBytes, h]

/-- A text without such bytes is left alone. -/
theorem escapeBytes_of_plain {text : Bytes} (h : ∀ byte ∈ text, p byte = false) :
    escapeBytes p text = text := by
  induction text with
  | nil => rfl
  | cons byte rest ih =>
    rw [escapeBytes_plain (h byte mem_cons_self), ih fun b hb => h b (mem_cons_of_mem byte hb)]

/-- Bytes from 0x80 on at the front of the escaped text are bytes of the text. -/
theorem take_escapeBytes {n : ℕ} {text rest : Bytes} (hrest : ∀ byte ∈ rest.head?, byte < 0x80)
    (hn : n ≤ (escapeBytes p text ++ rest).length)
    (h : ∀ byte ∈ (escapeBytes p text ++ rest).take n, ¬byte < 0x80) :
    n ≤ text.length ∧ (escapeBytes p text ++ rest).take n = text.take n ∧
      (escapeBytes p text ++ rest).drop n = escapeBytes p (text.drop n) ++ rest := by
  induction n generalizing text with
  | zero => exact ⟨Nat.zero_le _, rfl, rfl⟩
  | succ n ih =>
    cases text with
    | nil =>
      cases rest with
      | nil => simp at hn
      | cons byte rest => exact absurd (hrest byte rfl) (h byte (by simp))
    | cons byte text =>
      by_cases hp : p byte = true
      · rw [escapeBytes_active hp] at h
        exact absurd (by decide) (h (byteOf '\\') (by simp))
      · rw [escapeBytes_plain (by simpa using hp), cons_append] at hn h ⊢
        rw [take_succ_cons] at h
        obtain ⟨hle, htake, hdrop⟩ := ih (by simpa using hn)
          fun b hb => h b (mem_cons_of_mem byte hb)
        refine ⟨by simpa using hle, ?_, ?_⟩
        · rw [take_succ_cons, take_succ_cons, htake]
        · rw [drop_succ_cons, drop_succ_cons, hdrop]

/-! ### Characters -/

/-- A character ahead is one byte or has no byte below 0x80. -/
theorem characterLength_high (hd : d.AsciiSafe) {text : Bytes} {final : Bool}
    (h : 1 < d.characterLength text final) :
    ∀ byte ∈ text.take (d.characterLength text final), ¬byte < 0x80 := by
  have hsame : d.characterLength text final = d.characterLength text true := by
    cases text with
    | nil => rfl
    | cons byte rest =>
      unfold Decoder.characterLength at h ⊢
      dsimp only at h ⊢
      split
      · rfl
      · rw [if_neg (by assumption)] at h
        split
        · rw [if_pos (by assumption)] at h
          exact absurd h (Nat.not_lt_zero 1)
        · simp
  rw [hsame] at h ⊢
  exact hd.high h

/-- There is a whole character ahead. -/
theorem characterLength_pos {text : Bytes} (hne : text ≠ []) {final : Bool}
    (h : final = true ∨ d.AsciiClean ∧ ∃ byte ∈ text, byte < 0x80) :
    0 < d.characterLength text final := by
  rcases h with rfl | ⟨hd, byte, hbyte, hlow⟩
  · exact Decoder.characterLength_final_pos hne
  · obtain ⟨first, rest, rfl⟩ := exists_cons_of_ne_nil hne
    have hpartly : d.mbrlen (first :: rest) ≠ .incomplete :=
      fun hin => hd.partly _ hin byte hbyte hlow
    unfold Decoder.characterLength
    dsimp only
    split
    · exact Nat.one_pos
    · simp only [hpartly, decide_false, Bool.false_and, Bool.false_eq_true, if_false]
      exact Decoder.characterBytes_pos _

/-! ### Morsels -/

/-- Fragments of text and escaped bytes below a parent, from offset `o` of the spelling
on: what they spell, and what that stands for. -/
inductive Morsels (parent : Option ℕ) (quote : Quote) (o : ℕ) : Bytes → List Fragment → Bytes → Prop
  | nil : Morsels parent quote o [] [] []
  | text {w t : Bytes} {fs : List Fragment} (h : Morsels parent quote o w fs t) {v : Bytes}
      (hne : v ≠ []) (start finish : Position) :
      Morsels parent quote o (w ++ v)
        (fs ++ [⟨.text, quote, parent, o + w.length, o + (w ++ v).length, start, finish⟩]) (t ++ v)
  | escape {w t : Bytes} {fs : List Fragment} (h : Morsels parent quote o w fs t) (byte : UInt8)
      (start finish : Position) :
      Morsels parent quote o (w ++ [byteOf '\\', byte])
        (fs ++ [⟨.escape, quote, parent, o + w.length, o + w.length + 2, start, finish⟩])
        (t ++ [byte])

/-- A place of the scanner in which the bytes of a kind are active and all others are
text. -/
structure Region (d : Decoder) (document : Bool) (frames : List Frame) (quote : Quote)
    (p : UInt8 → Bool) : Prop where
  ascii : ∀ byte, p byte = true → byte < 0x80
  text : ∀ {m : Machine} {raw : Bytes} {fs : List Fragment} {byte : UInt8} {rest : Bytes},
    Pending m document raw fs frames → (m.lexer.active = true ∨ frames = []) →
    m.source.unread = byte :: rest → byte ≠ 0 → p byte = false →
    0 < d.characterLength m.source.unread m.source.final →
    m.step d = .attempt
      (m.startWord.piece .text quote (d.characterLength m.source.unread m.source.final))
  escape : ∀ {m : Machine} {raw : Bytes} {fs : List Fragment} {byte : UInt8} {rest : Bytes},
    Pending m document raw fs frames → (m.lexer.active = true ∨ frames = []) →
    m.source.unread = byteOf '\\' :: byte :: rest → p byte = true →
    m.step d = .attempt (m.startWord.piece .escape quote 2)

section Region

variable {document : Bool} {frames : List Frame} {quote : Quote} {raw w t : Bytes}
  {fs gs : List Fragment}

/-- The fragment that the next fragments are inside of. -/
def parentOf (frames : List Frame) : Option ℕ := frames.head?.map Frame.fragment

/-- A round that takes text. -/
theorem Pending.takes_text (h : Pending m document (raw ++ w) (fs ++ gs) frames)
    (hgs : Morsels (parentOf frames) quote raw.length w gs t)
    (hfs : ∀ f ∈ fs.getLast?, f.kind ≠ .text) {v rest : Bytes} (hv : v ≠ []) (h0 : NulFree v)
    (hb : m.source.unread = v ++ rest)
    (hstep : m.step d = .attempt (m.startWord.piece .text quote v.length)) :
    ∃ m' gs', m.step d = .again m' ∧ Beyond m m' rest ∧
      Pending m' document (raw ++ (w ++ v)) (fs ++ gs') frames ∧
      Morsels (parentOf frames) quote raw.length (w ++ v) gs' (t ++ v) := by
  obtain ⟨hstart, hbeyond⟩ := h.startWord
  have hparent : m.startWord.lexer.parentFragment = parentOf frames := by
    rw [Lexer.parentFragment, hstart.frames]
    rfl
  have hunread := hbeyond.unread.trans hb
  have hlen : (raw ++ w).length + v.length = raw.length + (w ++ v).length := by
    simp only [length_append]
    omega
  -- either the last text goes on, or a new one begins
  have hfresh : (∀ f ∈ (fs ++ gs).getLast?, f.kind ≠ .text) →
      ∃ m' start finish, m.startWord.piece .text quote v.length = .ok m' ∧ Beyond m.startWord m' rest ∧
        Pending m' document (raw ++ (w ++ v)) (fs ++ (gs ++ [⟨.text, quote, parentOf frames,
          raw.length + w.length, raw.length + (w ++ v).length, start, finish⟩])) frames := by
    intro hlast
    have hnew : (decide (FragmentKind.text = .text) && m.startWord.lexer.extendsText quote) = false := by
      unfold Lexer.extendsText
      rw [hstart.fragments]
      cases hf : (fs ++ gs).getLast? with
      | none => rfl
      | some f => simp [hlast f (by rw [hf]; rfl)]
    obtain ⟨m', start, finish, hpiece, hread, hpending⟩ :=
      hstart.fresh hbeyond.active hnew hunread h0
    rw [hparent, hlen, length_append, append_assoc, append_assoc] at hpending
    exact ⟨m', start, finish, hpiece, hread, hpending⟩
  rw [hstep]
  cases hgs with
  | nil =>
    obtain ⟨m', start, finish, hpiece, hread, hpending⟩ := hfresh (by simpa using hfs)
    refine ⟨m', _, by rw [hpiece]; rfl, hbeyond.trans hread, hpending, ?_⟩
    exact .text .nil hv start finish
  | @text w₀ t₀ gs₀ hgs₀ v₀ hv₀ start finish =>
    rw [← append_assoc fs] at hstart
    obtain ⟨m', finish', hpiece, hread, hpending⟩ := hstart.join hbeyond.active rfl rfl hparent.symm
      (by simp only [length_append]) hunread h0
    have hmore := @Morsels.text _ _ _ _ _ _ hgs₀ (v₀ ++ v) (by simp [hv₀]) start finish'
    rw [← append_assoc w₀, ← append_assoc t₀] at hmore
    rw [hlen, append_assoc raw, append_assoc fs] at hpending
    exact ⟨m', _, by rw [hpiece]; rfl, hbeyond.trans hread, hpending, hmore⟩
  | @escape w₀ t₀ gs₀ hgs₀ byte start finish =>
    obtain ⟨m', start', finish', hpiece, hread, hpending⟩ := hfresh (by
      rw [← append_assoc, getLast?_concat]
      simp)
    refine ⟨m', _, by rw [hpiece]; rfl, hbeyond.trans hread, hpending, ?_⟩
    exact .text (.escape hgs₀ byte start finish) hv start' finish'

/-- A round that takes an escaped byte. -/
theorem Pending.takes_escape (h : Pending m document (raw ++ w) (fs ++ gs) frames)
    (hgs : Morsels (parentOf frames) quote raw.length w gs t) {byte : UInt8} {rest : Bytes}
    (h0 : byte ≠ 0) (hb : m.source.unread = byteOf '\\' :: byte :: rest)
    (hstep : m.step d = .attempt (m.startWord.piece .escape quote 2)) :
    ∃ m' gs', m.step d = .again m' ∧ Beyond m m' rest ∧
      Pending m' document (raw ++ (w ++ [byteOf '\\', byte])) (fs ++ gs') frames ∧
      Morsels (parentOf frames) quote raw.length (w ++ [byteOf '\\', byte]) gs' (t ++ [byte]) := by
  obtain ⟨hstart, hbeyond⟩ := h.startWord
  have hparent : m.startWord.lexer.parentFragment = parentOf frames := by
    rw [Lexer.parentFragment, hstart.frames]
    rfl
  have hnul : NulFree [byteOf '\\', byte] := by
    simp only [NulFree, mem_cons, not_mem_nil, or_false, not_or]
    exact ⟨by decide, Ne.symm h0⟩
  have hunread : m.startWord.source.unread = [byteOf '\\', byte] ++ rest := hbeyond.unread.trans hb
  obtain ⟨m', start, finish, hpiece, hread, hpending⟩ :=
    @Pending.fresh _ _ _ _ _ .escape quote hstart hbeyond.active rfl _ _ hunread hnul
  rw [hparent, length_append, append_assoc, append_assoc] at hpending
  refine ⟨m', _, ?_, hbeyond.trans hread, hpending, .escape hgs byte start finish⟩
  rw [hstep]
  exact congrArg Step.attempt hpiece

/-- **Escaped text is read as morsels that stand for the text.** -/
theorem Region.reaches (hregion : Region d document frames quote p) (hd : d.AsciiSafe)
    (h : Pending m document (raw ++ w) (fs ++ gs) frames)
    (hgs : Morsels (parentOf frames) quote raw.length w gs t)
    (hfs : ∀ f ∈ fs.getLast?, f.kind ≠ .text) {text rest : Bytes} (h0 : NulFree text)
    (hi : m.lexer.active = true ∨ frames = [] ∧ text ≠ [])
    (hb : m.source.unread = escapeBytes p text ++ rest) (hrest : ∀ byte ∈ rest.head?, byte < 0x80)
    (hwhole : m.source.final = true ∨ d.AsciiClean ∧ rest ≠ []) :
    ∃ k m' gs', k ≤ (escapeBytes p text).length ∧ Reaches d k m m' ∧ Beyond m m' rest ∧
      Pending m' document (raw ++ (w ++ escapeBytes p text)) (fs ++ gs') frames ∧
      Morsels (parentOf frames) quote raw.length (w ++ escapeBytes p text) gs' (t ++ text) := by
  -- a round takes a byte or a character
  induction hn : text.length using Nat.strong_induction_on generalizing m w gs t text with
  | h n ih =>
    cases text with
    | nil =>
      have hactive : m.lexer.active = true := hi.resolve_right fun hne => hne.2 rfl
      exact ⟨0, m, gs, Nat.zero_le _, .refl m, ⟨hb, rfl, hactive, rfl⟩, by simpa using h,
        by simpa using hgs⟩
    | cons byte text =>
      have hidle : m.lexer.active = true ∨ frames = [] := hi.imp id And.left
      have hbyte : byte ≠ 0 := fun he => h0 (by simp [he])
      by_cases hp : p byte = true
      · rw [escapeBytes_active hp] at hb ⊢
        obtain ⟨m₁, gs₁, hstep, hbeyond, hpending, hmorsels⟩ :=
          h.takes_escape hgs hbyte hb (hregion.escape h hidle hb hp)
        obtain ⟨k, m', gs', hk, hreach, hbeyond', hpending', hmorsels'⟩ :=
          ih text.length (by simp only [length_cons] at hn; omega) hpending hmorsels
            (fun hmem => h0 (mem_cons_of_mem byte hmem)) (Or.inl hbeyond.active) hbeyond.unread
            (by rw [hbeyond.final]; exact hwhole) rfl
        refine ⟨k + 1, m', gs', ?_, .step hstep hreach, hbeyond.trans hbeyond', ?_, ?_⟩
        · simp only [length_cons]
          omega
        · simpa using hpending'
        · simpa using hmorsels'
      · have hp' : p byte = false := by simpa using hp
        have hplain := escapeBytes_plain hp' text
        have hunread : m.source.unread = byte :: (escapeBytes p text ++ rest) := by
          rw [hb, hplain]
          rfl
        have hne : m.source.unread ≠ [] := by simp [hunread]
        have hwidth : 0 < d.characterLength m.source.unread m.source.final := by
          apply characterLength_pos hne
          refine hwhole.imp id fun hclean => ⟨hclean.1, ?_⟩
          obtain ⟨first, more, hmore⟩ := exists_cons_of_ne_nil hclean.2
          refine ⟨first, ?_, hrest first (by rw [hmore]; rfl)⟩
          rw [hunread, hmore]
          simp
        have hstep := hregion.text h hidle hunread hbyte hp' hwidth
        generalize hlength : d.characterLength m.source.unread m.source.final = width at hwidth hstep
        -- the character is the beginning of the text
        have hcharacter : width ≤ (byte :: text).length ∧
            m.source.unread = (byte :: text).take width ++
              (escapeBytes p ((byte :: text).drop width) ++ rest) ∧
            escapeBytes p (byte :: text) =
              (byte :: text).take width ++ escapeBytes p ((byte :: text).drop width) := by
          by_cases hone : width = 1
          · subst hone
            refine ⟨by simp, by simpa using hunread, ?_⟩
            rw [hplain]
            rfl
          · have hlong : 1 < d.characterLength m.source.unread m.source.final := by
              rw [hlength]
              omega
            have hhigh := characterLength_high hd hlong
            have hle := characterLength_le (d := d) m.source.unread m.source.final
            rw [hlength, hb] at hhigh hle
            obtain ⟨hlen, htake, hdrop⟩ := take_escapeBytes hrest hle hhigh
            have hall : escapeBytes p (byte :: text) ++ rest =
                (byte :: text).take width ++ (escapeBytes p ((byte :: text).drop width) ++ rest) := by
              rw [← htake, ← hdrop, take_append_drop]
            refine ⟨hlen, hb.trans hall, ?_⟩
            rw [← append_assoc] at hall
            exact append_cancel_right hall
        obtain ⟨hle, hsplit, hescaped⟩ := hcharacter
        have hlen : ((byte :: text).take width).length = width := by
          rw [length_take]
          omega
        have hv : (byte :: text).take width ≠ [] := by
          intro hnil
          rw [hnil, length_nil] at hlen
          omega
        rw [← hlen] at hstep
        obtain ⟨m₁, gs₁, hnext, hbeyond, hpending, hmorsels⟩ := h.takes_text hgs hfs hv
          (fun hmem => h0 (mem_of_mem_take hmem)) hsplit hstep
        obtain ⟨k, m', gs', hk, hreach, hbeyond', hpending', hmorsels'⟩ :=
          ih ((byte :: text).drop width).length (by rw [length_drop]; omega) hpending hmorsels
            (fun hmem => h0 (mem_of_mem_drop hmem)) (Or.inl hbeyond.active) hbeyond.unread
            (by rw [hbeyond.final]; exact hwhole) rfl
        refine ⟨k + 1, m', gs', ?_, .step hnext hreach, hbeyond.trans hbeyond', ?_, ?_⟩
        · rw [hescaped, length_append, hlen]
          omega
        · rw [hescaped]
          simpa using hpending'
        · rw [hescaped]
          rw [append_assoc, append_assoc, take_append_drop] at hmorsels'
          exact hmorsels'

end Region

end Quoting
end CShell
