import CShell.Quoting.Pieces
import CShell.Quoting.Printers

/-!
# Reading quoted words

The scanner on a word that a quoting printer wrote: an unquoted beginning makes one
text fragment, every quoted part a region with a text fragment in it unless it is
empty, and an escaped quote a fragment of its own.  Inside the quotes the scanner
steps by characters of the source encoding; the byte of the quote must not be part
of a longer one.

## Main definitions

* `Decoder.QuoteSafe` — the byte of the single quote is in no multibyte character.
* `Lays` — the fragments of a list of parts.
* `Boundary` — a lexer between two tokens; `Ends` — what ends a word.

## Main results

* `lexerNext_word` — **the word is read as one token with these fragments.**

## References

`src/lexer.c` (`next_token`).
-/

namespace CShell

/-- The byte of the single quote never occurs inside a multibyte character, finished
or not. -/
structure Decoder.QuoteSafe (d : Decoder) : Prop where
  complete : ∀ text n, d.mbrlen text = .bytes n → 1 < n → byteOf '\'' ∉ text.take n
  partly : ∀ text, d.mbrlen text = .incomplete → byteOf '\'' ∉ text

namespace Quoting

open Lexical Machine List

variable {d : Decoder} {m m' : Machine}

/-- The fragments of a list of parts that begins at offset `o` of the spelling, the
first fragment having index `i`. -/
inductive Lays : List Part → ℕ → ℕ → List Fragment → Prop
  | nil {o i : ℕ} : Lays [] o i []
  | quote {parts : List Part} {o i : ℕ} {fs : List Fragment} (start finish : Position)
      (h : Lays parts (o + 2) (i + 1) fs) :
      Lays (.quote :: parts) o i (⟨.escape, .none, none, o, o + 2, start, finish⟩ :: fs)
  | empty {parts : List Part} {o i : ℕ} {fs : List Fragment} (start finish : Position)
      (h : Lays parts (o + 2) (i + 1) fs) :
      Lays (.single [] :: parts) o i (⟨.quoted, .single, none, o, o + 2, start, finish⟩ :: fs)
  | single {parts : List Part} {o i : ℕ} {fs : List Fragment} {text : Bytes} (hne : text ≠ [])
      (start finish start' finish' : Position)
      (h : Lays parts (o + text.length + 2) (i + 2) fs) :
      Lays (.single text :: parts) o i
        (⟨.quoted, .single, none, o, o + text.length + 2, start, finish⟩ ::
          ⟨.text, .single, some i, o + 1, o + 1 + text.length, start', finish'⟩ :: fs)

/-! ### The pending word -/

/-- What the scanner holds of a word it is reading or about to start. -/
structure Holds (m : Machine) (raw : Bytes) (fragments : List Fragment) (frames : List Frame) :
    Prop where
  raw : m.lexer.raw = raw
  fragments : m.lexer.fragments = fragments
  frames : m.lexer.frames = frames
  comment : m.lexer.comment = false
  document : m.lexer.document = false
  kind : m.lexer.active = true → m.lexer.kind = .word

variable {frames : List Frame} {fs : List Fragment} {raw rest : Bytes} {byte : UInt8}

theorem holds_iff :
    Holds m raw fs frames ↔ Pending m false raw fs frames :=
  ⟨fun h => ⟨h.raw, h.fragments, h.frames, h.comment, h.document, h.kind⟩,
    fun h => ⟨h.raw, h.fragments, h.frames, h.comment, h.document, h.kind⟩⟩

/-- A round at a byte of a word: it depends on the width of the character. -/
theorem step_word {fragments : List Fragment}
    (h : Holds m raw fragments frames)
    (hb : m.source.unread = byte :: rest) (h0 : byte ≠ 0) (hs : m.lexer.inFrame .simple = false) :
    m.step d =
      if d.characterLength m.source.unread m.source.final = 0 then .done .more m
      else if 1 < d.characterLength m.source.unread m.source.final then
        m.wideStep (d.characterLength m.source.unread m.source.final)
      else m.byteStep d byte :=
  step_pending (holds_iff.mp h) hb h0 hs

/-- A piece of text that continues the last fragment. -/
theorem piece_join {f : Fragment}
    {quote : Quote} (h : Holds m raw (fs ++ [f]) frames) (hi : m.lexer.active = true)
    (hkind : f.kind = .text) (hquote : f.quote = quote) (hparent : f.parent = m.lexer.parentFragment)
    (hstop : f.stop = raw.length) {w rest : Bytes} (hb : m.source.unread = w ++ rest)
    (h0 : NulFree w) :
    ∃ m' finish, m.piece .text quote w.length = .ok m' ∧ Beyond m m' rest ∧
      Holds m' (raw ++ w) (fs ++ [{ f with stop := raw.length + w.length, finish }]) frames := by
  simp only [holds_iff] at h ⊢
  exact h.join hi hkind hquote hparent hstop hb h0

/-- A piece that makes a fragment of its own. -/
theorem piece_new {raw : Bytes} {fs : List Fragment} {frames : List Frame} {kind : FragmentKind}
    {quote : Quote} (h : Holds m raw fs frames) (hi : m.lexer.active = true)
    (hnew : (decide (kind = .text) && m.lexer.extendsText quote) = false) {w rest : Bytes}
    (hb : m.source.unread = w ++ rest) (h0 : NulFree w) :
    ∃ m' start finish, m.piece kind quote w.length = .ok m' ∧ Beyond m m' rest ∧
      Holds m' (raw ++ w) (fs ++ [⟨kind, quote, m.lexer.parentFragment, raw.length,
        raw.length + w.length, start, finish⟩]) frames := by
  simp only [holds_iff] at h ⊢
  exact h.fresh hi hnew hb h0

/-! ### Rounds -/

theorem startWord_holds (h : Holds m raw fs frames) :
    Holds m.startWord raw fs frames ∧ Beyond m m.startWord m.source.unread := by
  simp only [holds_iff] at h ⊢
  exact h.startWord

/-- A round outside all frames at a byte of the word that is not a backslash. -/
theorem step_root (h : Holds m raw fs [])
    (hb : m.source.unread = byte :: rest) (h0 : byte ≠ 0) (hlow : byte < 0x80)
    (hne : byte ≠ byteOf '\\') : m.step d = m.plainByte d byte := by
  have hf := fun kind => inFrame_nil h.frames kind
  rw [step_word h hb h0 (hf _), hb, characterLength_ascii hlow]
  simp only [Nat.one_ne_zero, if_false, Nat.lt_irrefl]
  unfold byteStep
  simp [hf, arithmeticByte, escapeByte, hne]

/-- A round that opens a quoted region. -/
theorem step_open (h : Holds m raw fs [])
    (hb : m.source.unread = tick :: rest) :
    ∃ m' start, m.step d = .again m' ∧ Beyond m m' rest ∧
      Holds m' (raw ++ [tick])
        (fs ++ [⟨.quoted, .single, none, raw.length, raw.length, start, start⟩])
        [⟨.single, .single, fs.length, 0, 0⟩] := by
  have hf := fun kind => inFrame_nil h.frames kind
  obtain ⟨hstart, hbeyond⟩ := startWord_holds h
  have hquote : m.startWord.lexer.contextQuote = .none := by
    simp [Lexer.contextQuote, Lexer.inFrame, Lexer.frameQuote, hstart.frames, hstart.document]
  have hstep : m.step d = .attempt (m.startWord.push .single .quoted .single 1) := by
    rw [step_root h hb (by decide) (by decide) (by decide)]
    unfold plainByte wordByte
    simp [hf, hquote, operatorChar, ascii, byteOf]
  have hparent : m.startWord.lexer.parentFragment = none := by
    simp [Lexer.parentFragment, hstart.frames]
  obtain ⟨m', start, hpush, hread, hpending⟩ := (holds_iff.mp hstart).push hbeyond.active .single
    .quoted .single (hbeyond.unread.trans hb) (by decide)
  rw [hparent] at hpending
  refine ⟨m', start, ?_, hbeyond.trans hread, holds_iff.mpr hpending⟩
  rw [hstep, hpush]
  rfl

/-- The next character of a quoted region lies before its end. -/
theorem characterLength_quoted (hd : d.QuoteSafe) (byte : UInt8) (w rest : Bytes) (final : Bool) :
    1 ≤ d.characterLength ((byte :: w) ++ tick :: rest) final ∧
      d.characterLength ((byte :: w) ++ tick :: rest) final ≤ (byte :: w).length := by
  have htick : tick ∈ (byte :: w) ++ tick :: rest := by simp
  rw [cons_append] at htick ⊢
  unfold Decoder.characterLength
  by_cases hlow : byte < 0x80
  · simp [hlow]
  · have hpartly : d.mbrlen (byte :: (w ++ tick :: rest)) ≠ .incomplete :=
      fun hin => hd.partly _ hin htick
    simp only [hlow, if_false, hpartly, decide_false, Bool.false_and, Bool.false_eq_true]
    refine ⟨Decoder.characterBytes_pos _, ?_⟩
    unfold Decoder.characterBytes
    split
    · next n hn =>
      split
      · simp
      · by_contra hlong
        have hmem : tick ∈ (byte :: (w ++ tick :: rest)).take n := by
          obtain ⟨k, hk⟩ : ∃ k, n - (byte :: w).length = k + 1 :=
            ⟨n - (byte :: w).length - 1, by omega⟩
          rw [← cons_append, take_append, hk, take_succ_cons]
          simp
        exact hd.complete _ n hn (by simp at hlong; omega) hmem
    · simp

/-- The fragments of an open region: the region and the text read of it. -/
def regionFragments (q : Fragment) (text : Bytes) (t : Fragment) : List Fragment :=
  if text = [] then [q] else [q, t]

/-- A piece of text inside a quoted region. -/
theorem piece_region {raw text w rest : Bytes} {q : Fragment} {o : ℕ}
    {start finish : Position} {stage : ℕ}
    (h : Holds m raw (fs ++ regionFragments q text
        ⟨.text, .single, some fs.length, o, o + text.length, start, finish⟩)
      [⟨.single, .single, fs.length, 0, stage⟩])
    (hi : m.lexer.active = true) (ho : o + text.length = raw.length) (hq : q.kind ≠ .text)
    (hb : m.source.unread = w ++ rest) (hw : w ≠ []) (h0 : NulFree w) :
    ∃ m' start finish, m.piece .text .single w.length = .ok m' ∧ Beyond m m' rest ∧
      Holds m' (raw ++ w) (fs ++ regionFragments q (text ++ w)
          ⟨.text, .single, some fs.length, o, o + (text ++ w).length, start, finish⟩)
        [⟨.single, .single, fs.length, 0, stage⟩] := by
  have hparent : m.lexer.parentFragment = some fs.length := by
    simp [Lexer.parentFragment, h.frames]
  have hmore : text ++ w ≠ [] := by simp [hw]
  by_cases htext : text = []
  · -- the first piece makes the text fragment
    subst htext
    rw [regionFragments, if_pos rfl] at h
    have hnew : (decide (FragmentKind.text = .text) && m.lexer.extendsText .single) = false := by
      simp [Lexer.extendsText, h.fragments, hq]
    obtain ⟨m', start', finish', hpiece, hbeyond, hholds⟩ := piece_new h hi hnew hb h0
    refine ⟨m', start', finish', hpiece, hbeyond, ?_⟩
    rw [regionFragments, if_neg hmore]
    rw [hparent, append_assoc] at hholds
    have ho' : raw.length = o := by simpa using ho.symm
    rw [ho'] at hholds
    exact hholds
  · rw [regionFragments, if_neg htext, show [q, _] = [q] ++ [_] from rfl, ← append_assoc] at h
    obtain ⟨m', finish', hpiece, hbeyond, hholds⟩ := piece_join h hi rfl rfl hparent.symm ho hb h0
    refine ⟨m', start, finish', hpiece, hbeyond, ?_⟩
    rw [regionFragments, if_neg hmore]
    have hlen : o + (text ++ w).length = raw.length + w.length := by
      rw [length_append]
      omega
    rw [hlen]
    simpa using hholds

/-- The rounds inside a quoted region. -/
theorem reaches_inside (hd : d.QuoteSafe) {raw text w rest : Bytes} {fs : List Fragment}
    {q : Fragment} {o : ℕ} {start finish : Position} {stage : ℕ}
    (h : Holds m raw (fs ++ regionFragments q text
        ⟨.text, .single, some fs.length, o, o + text.length, start, finish⟩)
      [⟨.single, .single, fs.length, 0, stage⟩])
    (hi : m.lexer.active = true) (ho : o + text.length = raw.length) (hq : q.kind ≠ .text)
    (hb : m.source.unread = w ++ tick :: rest) (hw : tick ∉ w) (h0 : NulFree w) :
    ∃ k m' start finish, k ≤ w.length ∧ Reaches d k m m' ∧ Beyond m m' (tick :: rest) ∧
      Holds m' (raw ++ w) (fs ++ regionFragments q (text ++ w)
          ⟨.text, .single, some fs.length, o, o + (text ++ w).length, start, finish⟩)
        [⟨.single, .single, fs.length, 0, stage⟩] := by
  induction hn : w.length using Nat.strong_induction_on generalizing m raw text w start finish with
  | h n ih =>
    cases w with
    | nil => exact ⟨0, m, start, finish, Nat.zero_le _, .refl m, ⟨hb, rfl, hi, rfl⟩, by simpa using h⟩
    | cons byte w =>
      obtain ⟨hpos, hle⟩ := characterLength_quoted hd byte w rest m.source.final
      rw [← hb] at hpos hle
      generalize hwidth : d.characterLength m.source.unread m.source.final = width at hpos hle
      -- whatever its width, the character is one piece of text
      have hbyte : byte ≠ tick := fun he => hw (by simp [he])
      have hzero : byte ≠ 0 := fun he => h0 (by simp [he])
      have hframe : m.lexer.inFrame .single = true := by simp [Lexer.inFrame, h.frames]
      have hquote : m.lexer.frameQuote = .single := by simp [Lexer.frameQuote, h.frames]
      have hstep : m.step d = .attempt (m.piece .text .single width) := by
        rw [step_word h hb hzero (by simp [Lexer.inFrame, h.frames]), hwidth, if_neg (by omega)]
        by_cases hwide : 1 < width
        · rw [if_pos hwide]
          simp [wideStep, startWord, hi, Lexer.inFrame, h.frames, hquote]
        · have hone : width = 1 := by omega
          rw [if_neg hwide, byteStep, if_pos hframe, if_neg hbyte, hquote, hone]
      have hsplit : m.source.unread =
          (byte :: w).take width ++ ((byte :: w).drop width ++ tick :: rest) := by
        rw [← append_assoc, take_append_drop, hb]
      have hlen : ((byte :: w).take width).length = width := by
        rw [length_take]
        omega
      have h0' : NulFree ((byte :: w).take width) := fun hmem => h0 (mem_of_mem_take hmem)
      obtain ⟨m₁, start₁, finish₁, hpiece, hbeyond, hholds⟩ :=
        piece_region h hi ho hq hsplit (by simp; omega) h0'
      rw [hlen] at hpiece
      have hnext : m.step d = .again m₁ := by rw [hstep, hpiece]; rfl
      have ho₁ : o + (text ++ (byte :: w).take width).length = (raw ++ (byte :: w).take width).length := by
        simp only [length_append]
        omega
      obtain ⟨k, m', start', finish', hk, hreach, hbeyond', hholds'⟩ :=
        ih ((byte :: w).drop width).length (by rw [length_drop]; omega) hholds hbeyond.active ho₁
          hbeyond.unread (fun hmem => hw (mem_of_mem_drop hmem))
          (fun hmem => h0 (mem_of_mem_drop hmem)) rfl
      refine ⟨k + 1, m', start', finish', ?_, .step hnext hreach, ?_, ?_⟩
      · rw [length_drop] at hk
        omega
      · exact hbeyond.trans hbeyond'
      · rw [append_assoc, take_append_drop, append_assoc, take_append_drop] at hholds'
        exact hholds'

/-- The round that closes a quoted region. -/
theorem step_close {fs more : List Fragment} {q : Fragment} {stage : ℕ}
    (h : Holds m raw (fs ++ q :: more) [⟨.single, .single, fs.length, 0, stage⟩])
    (hi : m.lexer.active = true) (hb : m.source.unread = tick :: rest) :
    ∃ m' finish, m.step d = .again m' ∧ Beyond m m' rest ∧
      Holds m' (raw ++ [tick]) (fs ++ { q with stop := raw.length + 1, finish } :: more) [] := by
  have hframe : m.lexer.inFrame .single = true := by simp [Lexer.inFrame, h.frames]
  have hstep : m.step d = .attempt (m.pop 1) := by
    rw [step_word h hb (by decide) (by simp [Lexer.inFrame, h.frames]), hb,
      characterLength_ascii (by decide)]
    simp [byteStep, hframe]
  obtain ⟨m', finish, hpop, hbeyond, hpending⟩ := (holds_iff.mp h).pop hi rfl hb (by decide)
  refine ⟨m', finish, ?_, hbeyond, holds_iff.mpr hpending⟩
  rw [hstep, hpop]
  rfl

/-- The round at an escaped quote. -/
theorem step_escape (h : Holds m raw fs [])
    (hb : m.source.unread = byteOf '\\' :: tick :: rest) :
    ∃ m' start finish, m.step d = .again m' ∧ Beyond m m' rest ∧
      Holds m' (raw ++ [byteOf '\\', tick])
        (fs ++ [⟨.escape, .none, none, raw.length, raw.length + 2, start, finish⟩]) [] := by
  have hf := fun kind => inFrame_nil h.frames kind
  obtain ⟨hstart, hbeyond⟩ := startWord_holds h
  have hquote : m.lexer.contextQuote = .none := by
    simp [Lexer.contextQuote, Lexer.inFrame, Lexer.frameQuote, h.frames, h.document]
  have hstep : m.step d = .attempt (m.startWord.piece .escape .none 2) := by
    rw [step_word h hb (by decide) (hf _), hb, characterLength_ascii (by decide)]
    have hwidth : d.characterLength (tick :: rest) m.source.final = 1 :=
      characterLength_ascii (by decide) _ _
    have hnl : tick ≠ byteOf '\n' := by decide
    simp [byteStep, hf, arithmeticByte, escapeByte, hquote, hb, hwidth, escapes, hnl]
  have hunread : m.startWord.source.unread = [byteOf '\\', tick] ++ rest := by
    rw [hbeyond.unread, hb]
    rfl
  obtain ⟨m', start, finish, hpiece, hread, hholds⟩ :=
    @piece_new _ _ _ _ .escape .none hstart hbeyond.active rfl _ _ hunread (by decide)
  have hparent : m.startWord.lexer.parentFragment = none := by
    simp [Lexer.parentFragment, hstart.frames]
  rw [hparent] at hholds
  refine ⟨m', start, finish, ?_, ?_, hholds⟩
  · rw [hstep]
    exact congrArg Step.attempt hpiece
  · exact hbeyond.trans hread

/-- **The parts of a word are read one after the other.** -/
theorem reaches_parts (hd : d.QuoteSafe) {parts : List Part} (hparts : ∀ part ∈ parts, part.Fine)
    (h : Holds m raw fs [])
    (hi : m.lexer.active = true ∨ parts ≠ [])
    (hb : m.source.unread = spelling parts ++ rest) :
    ∃ k m' gs, k ≤ (spelling parts).length ∧ Reaches d k m m' ∧ Beyond m m' rest ∧
      Holds m' (raw ++ spelling parts) (fs ++ gs) [] ∧ Lays parts raw.length fs.length gs := by
  induction parts generalizing m raw fs with
  | nil =>
    have hactive : m.lexer.active = true := hi.resolve_right (fun hne => hne rfl)
    exact ⟨0, m, [], Nat.zero_le _, .refl m, ⟨hb, rfl, hactive, rfl⟩, by simpa using h, .nil⟩
  | cons part parts ih =>
    have hfine := hparts part mem_cons_self
    have hrest := fun p hp => hparts p (mem_cons_of_mem part hp)
    rw [spelling_cons, append_assoc] at hb
    cases part with
    | quote =>
      obtain ⟨m₁, start, finish, hstep, hbeyond, hholds⟩ := step_escape (d := d) h hb
      obtain ⟨k, m', gs, hk, hreach, hbeyond', hholds', hlays⟩ :=
        ih hrest hholds (Or.inl hbeyond.active) hbeyond.unread
      rw [length_append, length_append] at hlays
      refine ⟨k + 1, m', _ :: gs, ?_, .step hstep hreach, ?_, ?_, .quote start finish hlays⟩
      · simp only [spelling_cons, Part.spelling, length_append, length_cons]
        omega
      · exact hbeyond.trans hbeyond'
      · simpa [Part.spelling] using hholds'
    | single text =>
      obtain ⟨htick, hnul⟩ := hfine
      have hb₀ : m.source.unread = tick :: (text ++ tick :: (spelling parts ++ rest)) := by
        simpa [Part.spelling] using hb
      -- the opening quote, the text, the closing quote
      obtain ⟨m₁, start, hstep₁, hbeyond₁, hholds₁⟩ := step_open (d := d) h hb₀
      obtain ⟨k₂, m₂, start₂, finish₂, hk₂, hreach₂, hbeyond₂, hholds₂⟩ :=
        @reaches_inside d m₁ hd (raw ++ [tick]) [] text _ fs _ (raw.length + 1) start start 0 hholds₁
          hbeyond₁.active (by simp) (by simp) hbeyond₁.unread htick hnul
      rw [nil_append] at hholds₂
      have hsplit : ∃ more, regionFragments
          ⟨.quoted, .single, none, raw.length, raw.length, start, start⟩ text
          ⟨.text, .single, some fs.length, raw.length + 1, raw.length + 1 + text.length, start₂, finish₂⟩
            = ⟨.quoted, .single, none, raw.length, raw.length, start, start⟩ :: more ∧
          (text = [] ∧ more = [] ∨ text ≠ [] ∧ more = [⟨.text, .single, some fs.length, raw.length + 1,
            raw.length + 1 + text.length, start₂, finish₂⟩]) := by
        unfold regionFragments
        split
        · next he => exact ⟨[], rfl, Or.inl ⟨he, rfl⟩⟩
        · next he => exact ⟨_, rfl, Or.inr ⟨he, rfl⟩⟩
      obtain ⟨more, hregion, hmore⟩ := hsplit
      rw [hregion] at hholds₂
      obtain ⟨m₃, finish₃, hstep₃, hbeyond₃, hholds₃⟩ :=
        step_close (d := d) hholds₂ hbeyond₂.active hbeyond₂.unread
      obtain ⟨k, m', gs, hk, hreach, hbeyond', hholds', hlays⟩ :=
        ih hrest hholds₃ (Or.inl hbeyond₃.active) hbeyond₃.unread
      have hlen : (raw ++ [tick] ++ text).length + 1 = raw.length + text.length + 2 := by
        simp only [length_append, length_singleton]
        omega
      rw [hlen] at hholds'
      have hlays' : Lays parts (raw.length + text.length + 2) (fs.length + more.length + 1) gs := by
        simpa [Nat.add_assoc, Nat.add_comm, Nat.add_left_comm] using hlays
      refine ⟨k₂ + k + 2, m', ⟨.quoted, .single, none, raw.length, raw.length + text.length + 2, start,
        finish₃⟩ :: more ++ gs, ?_, ?_, ?_, ?_, ?_⟩
      · simp only [spelling_cons, Part.spelling, length_append, length_cons, length_nil]
        omega
      · have hall := (Reaches.step hstep₁ hreach₂).trans (.step hstep₃ hreach)
        rwa [show k₂ + 1 + (k + 1) = k₂ + k + 2 by omega] at hall
      · exact ((hbeyond₁.trans hbeyond₂).trans hbeyond₃).trans hbeyond'
      · simpa [Part.spelling] using hholds'
      · rcases hmore with ⟨rfl, rfl⟩ | ⟨hne, rfl⟩
        · exact .empty start finish₃ hlays'
        · exact .single hne start finish₃ start₂ finish₂ hlays'

/-! ### The unquoted beginning -/

/-- The bytes that end a word, start something in it or act in a pattern. -/
def special : Bytes := ascii "\x00 \t\n|&;()<>#\\\"'$`~*?["

/-- An ordinary byte is none of them, and no part of a longer character. -/
theorem ordinary_spec (h : ordinary byte = true) :
    byte < 0x80 ∧ byte ∉ special := by
  have hall : ∀ n : Fin 256, ordinary (UInt8.ofNat n.val) = true →
      (UInt8.ofNat n.val).toNat < 128 ∧ UInt8.ofNat n.val ∉ special := by
    decide +kernel
  have hbyte := hall ⟨byte.toNat, byte.toNat_lt⟩
  rw [UInt8.ofNat_toNat] at hbyte
  exact hbyte h

/-- The fragments of an unquoted text. -/
def leadFragments (text : Bytes) (start finish : Position) : List Fragment :=
  if text = [] then [] else [⟨.text, .none, none, 0, text.length, start, finish⟩]

/-- A round at an ordinary byte. -/
theorem step_ordinary (h : Holds m raw fs [])
    (hb : m.source.unread = byte :: rest) (hbyte : ordinary byte = true) :
    m.step d = .attempt (m.startWord.piece .text .none 1) := by
  obtain ⟨hlow, hspecial⟩ := ordinary_spec hbyte
  have hne : ∀ c ∈ special, byte ≠ c := fun c hc he => hspecial (he ▸ hc)
  have hf := fun kind => inFrame_nil h.frames kind
  obtain ⟨hstart, -⟩ := startWord_holds h
  have hquote : m.startWord.lexer.contextQuote = .none := by
    simp [Lexer.contextQuote, Lexer.inFrame, Lexer.frameQuote, hstart.frames, hstart.document]
  have hop : operatorChar byte = false := by
    rw [operatorChar, contains_eq_mem, decide_eq_false_iff_not]
    intro hmem
    exact hspecial ((by decide +kernel : ∀ c ∈ ascii "|&;()<>", c ∈ special) byte hmem)
  rw [step_root h hb (hne 0 (by decide)) hlow (hne _ (by decide))]
  unfold Machine.plainByte wordByte
  simp [hf, hquote, hop, hne (byteOf ' ') (by decide), hne (byteOf '\t') (by decide),
    hne (byteOf '\n') (by decide), hne (byteOf '#') (by decide), hne (byteOf '"') (by decide),
    hne (byteOf '\'') (by decide), hne (byteOf '$') (by decide), hne (byteOf '\x60') (by decide)]

/-- A round that takes an ordinary byte. -/
theorem step_ordinary_again {text : Bytes} {start finish : Position}
    (h : Holds m text (leadFragments text start finish) [])
    (hb : m.source.unread = byte :: rest) (hbyte : ordinary byte = true) :
    ∃ m' start finish, m.step d = .again m' ∧ Beyond m m' rest ∧
      Holds m' (text ++ [byte]) (leadFragments (text ++ [byte]) start finish) [] := by
  obtain ⟨-, hspecial⟩ := ordinary_spec hbyte
  have h0 : NulFree [byte] := by
    intro hmem
    rw [← mem_singleton.mp hmem] at hspecial
    exact hspecial (by decide)
  obtain ⟨hstart, hbeyond⟩ := startWord_holds h
  have hunread : m.startWord.source.unread = [byte] ++ rest := by
    rw [hbeyond.unread, hb]
    rfl
  have hparent : m.startWord.lexer.parentFragment = none := by
    simp [Lexer.parentFragment, hstart.frames]
  have hpiece : ∃ m' start finish, m.startWord.piece .text .none 1 = .ok m' ∧
      Beyond m.startWord m' rest ∧
      Holds m' (text ++ [byte]) (leadFragments (text ++ [byte]) start finish) [] := by
    by_cases htext : text = []
    · subst htext
      have hnew : (decide (FragmentKind.text = .text) && m.startWord.lexer.extendsText .none) = false := by
        simp [Lexer.extendsText, hstart.fragments, leadFragments]
      obtain ⟨m', start', finish', hpiece, hread, hholds⟩ :=
        piece_new hstart hbeyond.active hnew hunread h0
      rw [hparent] at hholds
      exact ⟨m', start', finish', hpiece, hread, by simpa [leadFragments] using hholds⟩
    · rw [leadFragments, if_neg htext, ← nil_append [_]] at hstart
      obtain ⟨m', finish', hpiece, hread, hholds⟩ :=
        piece_join hstart hbeyond.active rfl rfl hparent.symm rfl hunread h0
      exact ⟨m', start, finish', hpiece, hread, by simpa [leadFragments] using hholds⟩
  obtain ⟨m', start', finish', hok, hread, hholds⟩ := hpiece
  refine ⟨m', start', finish', ?_, hbeyond.trans hread, hholds⟩
  rw [step_ordinary h hb hbyte, hok]
  rfl

/-- The rounds over an unquoted text. -/
theorem reaches_lead {text w rest : Bytes} {start finish : Position}
    (h : Holds m text (leadFragments text start finish) []) (hi : m.lexer.active = true ∨ w ≠ [])
    (hw : ∀ byte ∈ w, ordinary byte = true) (hb : m.source.unread = w ++ rest) :
    ∃ k m' start finish, k ≤ w.length ∧ Reaches d k m m' ∧ Beyond m m' rest ∧
      Holds m' (text ++ w) (leadFragments (text ++ w) start finish) [] := by
  induction w generalizing m text start finish with
  | nil =>
    have hactive : m.lexer.active = true := hi.resolve_right (fun hne => hne rfl)
    exact ⟨0, m, start, finish, Nat.zero_le _, .refl m, ⟨hb, rfl, hactive, rfl⟩, by simpa using h⟩
  | cons byte w ih =>
    obtain ⟨m₁, start₁, finish₁, hstep, hread, hholds⟩ :=
      step_ordinary_again (d := d) h hb (hw byte mem_cons_self)
    obtain ⟨k, m', start', finish', hk, hreach, hbeyond', hholds'⟩ :=
      ih hholds (Or.inl hread.active) (fun b hb => hw b (mem_cons_of_mem byte hb)) hread.unread
    refine ⟨k + 1, m', start', finish', by simpa using hk, .step hstep hreach, ?_, by simpa using hholds'⟩
    exact hread.trans hbeyond'

/-! ### The word -/

/-- A lexer between two tokens. -/
structure Boundary (m : Machine) : Prop where
  failure : m.source.failure = none
  active : m.lexer.active = false
  command : m.lexer.command = false
  holds : Holds m [] [] []

/-- What follows ends a word: a blank, a newline or an operator, or the end of the
input. -/
def Ends (final : Bool) (rest : Bytes) : Prop :=
  match rest with
  | [] => final = true
  | byte :: _ => byte ∈ ascii " \t\n|&;()<>"

/-- The round behind a word publishes it. -/
theorem step_publish (h : Holds m raw fs [])
    (hi : m.lexer.active = true) (hends : Ends m.source.final m.source.unread) :
    m.step d = m.publish := by
  have hf := fun kind => inFrame_nil h.frames kind
  cases hb : m.source.unread with
  | nil =>
    rw [hb] at hends
    have hfinal : m.source.final = true := hends
    have hkind : ¬ (m.lexer.active = true ∧ m.lexer.kind ≠ .word) := fun hk => hk.2 (h.kind hk.1)
    unfold step eof
    rw [if_neg hkind, if_pos hb, if_pos hfinal, h.frames]
    exact if_pos hi
  | cons byte rest =>
    rw [hb] at hends
    have hmem : byte ∈ ascii " \t\n|&;()<>" := hends
    have hlow : ∀ c ∈ ascii " \t\n|&;()<>", c.toNat < 128 ∧ c ≠ 0 ∧ c ≠ byteOf '\\' ∧
        (c = byteOf ' ' ∨ c = byteOf '\t' ∨ c = byteOf '\n' ∨ operatorChar c = true) := by decide +kernel
    obtain ⟨hascii, h0, hback, hsep⟩ := hlow byte hmem
    rw [step_root h hb h0 hascii hback]
    unfold Machine.plainByte
    simp only [hf, Bool.or_self, Bool.false_eq_true, if_false]
    rw [if_pos ⟨h.document, h.frames, hsep⟩, separatorStep, if_pos hi]

/-- **A word of an unquoted beginning and quoted parts is one token**, whose fragments
are those of its pieces. -/
theorem lexerNext_word (hd : d.QuoteSafe) (hm : Boundary m) {lead rest : Bytes}
    {parts : List Part} (hlead : ∀ byte ∈ lead, ordinary byte = true)
    (hparts : ∀ part ∈ parts, part.Fine) (hne : lead ≠ [] ∨ parts ≠ [])
    (hb : m.source.unread = lead ++ spelling parts ++ rest) (hends : Ends m.source.final rest) :
    ∃ t m' start finish gs, m.lexerNext d m.depth = (.token t, m') ∧ t.kind = .word ∧
      t.raw = lead ++ spelling parts ∧ m'.source.unread = rest ∧
      t.fragments = leadFragments lead start finish ++ gs ∧
      Lays parts lead.length (leadFragments lead start finish).length gs := by
  -- the unquoted beginning, if there is one
  have hfirst : ∃ k m₁ start finish, k ≤ lead.length ∧ Reaches d k m m₁ ∧
      m₁.source.unread = spelling parts ++ rest ∧ m₁.source.final = m.source.final ∧
      m₁.depth = m.depth ∧ Holds m₁ lead (leadFragments lead start finish) [] ∧
      (m₁.lexer.active = true ∨ parts ≠ []) := by
    by_cases hnil : lead = []
    · subst hnil
      refine ⟨0, m, {}, {}, Nat.zero_le _, .refl m, by simpa using hb, rfl, rfl, hm.holds, Or.inr ?_⟩
      exact hne.resolve_left (fun h => h rfl)
    · rw [append_assoc] at hb
      obtain ⟨k, m₁, start, finish, hk, hreach, hbeyond, hholds⟩ :=
        @reaches_lead d m [] lead _ {} {} hm.holds (Or.inr hnil) hlead hb
      exact ⟨k, m₁, start, finish, hk, hreach, hbeyond.unread, hbeyond.final, hbeyond.depth, hholds,
        Or.inl hbeyond.active⟩
  obtain ⟨k, m₁, start, finish, hk, hreach, hunread, hfinal, hdepth, hholds, hactive⟩ := hfirst
  obtain ⟨k', m₂, gs, hk', hreach', hbeyond', hholds', hlays⟩ :=
    reaches_parts hd hparts hholds hactive hunread
  have hpublish : m₂.step d = m₂.publish := by
    refine step_publish hholds' hbeyond'.active ?_
    rw [hbeyond'.unread, hbeyond'.final, hfinal]
    exact hends
  -- there are more rounds than bytes
  have hscan : ∃ m', scanLoop d m.rounds m = some (.token m₂.lexer.token, m') ∧
      m'.source.unread = rest := by
    have hlen : m.source.unread.length = lead.length + (spelling parts).length + rest.length := by
      rw [hb]
      simp only [length_append]
    obtain ⟨n, hn⟩ : ∃ n, m.rounds = k + k' + (n + 1) := by
      refine ⟨m.rounds - (k + k') - 1, ?_⟩
      unfold rounds
      omega
    rw [hn, (hreach.trans hreach').scanLoop, Machine.scanLoop, hpublish]
    exact ⟨_, rfl, hbeyond'.unread⟩
  obtain ⟨m', hscan, hrest⟩ := hscan
  refine ⟨m₂.lexer.token, m', start, finish, gs, ?_, hholds'.kind hbeyond'.active, hholds'.raw, hrest,
    hholds'.fragments, hlays⟩
  simp [lexerNext, Machine.nextToken, hm.failure, hm.command, hscan]

end Quoting
end CShell
