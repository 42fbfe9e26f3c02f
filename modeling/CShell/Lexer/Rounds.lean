import CShell.Lexer.Scan

/-!
# What a round of the scanner can do

A round first *readies* the machine: it looks ahead, clears the comment flag,
updates the innermost frame and starts a word.  It then does one thing.
`Round` lists the possibilities with the bytes each of them reads, and
`step_round` says the list is complete; what the scanner keeps is proved by cases
on it, and the scanning functions are not unfolded again.

## Main definitions

* `Readies d m m₁` — `m₁` is `m` made ready.
* `Round d m s` — a round on `m` may end as `s`.

## References

`src/lexer.c` (`next_token`).
-/

namespace CShell
namespace Lexical

open Machine

variable (d : Decoder)

/-- The preparations of a round. -/
inductive Readies (m : Machine) : Machine → Prop
  | refl : Readies m m
  | look {m₁ : Machine} (wanted : ℕ) : Readies m m₁ → Readies m (m₁.peek d wanted).2
  | clear {m₁ : Machine} (h : m₁.lexer.comment = true →
        m₁.source.unread.head? = some (byteOf '\n')) :
      Readies m m₁ → Readies m (m₁.onLexer fun l => { l with comment := false })
  | frame {m₁ : Machine} (f : Frame → Frame)
      (h : ∀ x, (f x).kind = x.kind ∧ (f x).fragment = x.fragment) :
      Readies m m₁ → Readies m (m₁.onLexer fun l => l.onFrame f)
  | start {m₁ : Machine} (h : m₁.lexer.active = false) (hc : m₁.lexer.comment = false) :
      Readies m m₁ → Readies m (m₁.startToken.onLexer fun l => { l with kind := .word })

/-- A lookahead of the round found a byte. -/
def Peeked (m : Machine) (wanted : ℕ) (value : UInt8) (physical : ℕ) : Prop :=
  ∃ m₀, Readies d m m₀ ∧ (m₀.peek d wanted).1 = .byte value physical

/-- What is skipped between tokens. -/
inductive Skips (m : Machine) : ℕ → Prop
  | comment (hc : m.lexer.comment = true) (byte : UInt8) (rest : Bytes)
      (hb : m.source.unread = byte :: rest) (h0 : byte ≠ 0) (hn : byte ≠ byteOf '\n') : Skips m 1
  | blank (byte : UInt8) (rest : Bytes) (hc : m.lexer.comment = false)
      (hb : m.source.unread = byte :: rest)
      (h : byte = byteOf ' ' ∨ byte = byteOf '\t') : Skips m 1
  | continuation (rest : Bytes) (hc : m.lexer.comment = false)
      (hb : m.source.unread = byteOf '\\' :: byteOf '\n' :: rest) : Skips m 2

/-- The bytes of a piece. -/
inductive Cuts (m : Machine) : FragmentKind → ℕ → Prop
  | text (hw : 0 < d.characterLength m.source.unread m.source.final) :
      Cuts m .text (d.characterLength m.source.unread m.source.final)
  | escape (rest : Bytes) (hb : m.source.unread = byteOf '\\' :: rest)
      (hw : 0 < d.characterLength rest m.source.final) :
      Cuts m .escape (1 + d.characterLength rest m.source.final)
  | continuation (rest : Bytes) (hb : m.source.unread = byteOf '\\' :: byteOf '\n' :: rest) :
      Cuts m .continuation 2

/-- The bytes that open a frame, in a machine `m₁` that a round on `m` made ready. -/
inductive Opens (m m₁ : Machine) : FrameKind → FragmentKind → Quote → ℕ → Prop
  | single (rest : Bytes) (hb : m₁.source.unread = byteOf '\'' :: rest) :
      Opens m m₁ .single .quoted .single 1
  | double (rest : Bytes) (hb : m₁.source.unread = byteOf '"' :: rest) :
      Opens m m₁ .double .quoted .double 1
  | backquote (rest : Bytes) (hb : m₁.source.unread = byteOf '\x60' :: rest) (quote : Quote) :
      Opens m m₁ .backquote .backquote quote 1
  | parameter (rest : Bytes) (hb : m₁.source.unread = byteOf '$' :: rest) (quote : Quote) (n : ℕ)
      (h : Peeked d m 1 (byteOf '\x7b') n) : Opens m m₁ .parameter .parameter quote n
  | dollarSingle (rest : Bytes) (hb : m₁.source.unread = byteOf '$' :: rest) (n : ℕ)
      (h : Peeked d m 1 (byteOf '\'') n) : Opens m m₁ .dollarSingle .quoted .dollarSingle n
  | simple (rest : Bytes) (hb : m₁.source.unread = byteOf '$' :: rest) (quote : Quote)
      (value : UInt8) (n : ℕ) (h : Peeked d m 1 value n) (hv : nameStart value = true) :
      Opens m m₁ .simple .parameter quote n

/-- The bytes that close a frame; a parameter name ends before them. -/
inductive Closes (m : Machine) : FrameKind → ℕ → Prop
  | single (rest : Bytes) (hb : m.source.unread = byteOf '\'' :: rest) : Closes m .single 1
  | double (rest : Bytes) (hb : m.source.unread = byteOf '"' :: rest) : Closes m .double 1
  | dollarSingle (rest : Bytes) (hb : m.source.unread = byteOf '\'' :: rest) :
      Closes m .dollarSingle 1
  | backquote (rest : Bytes) (hb : m.source.unread = byteOf '\x60' :: rest) : Closes m .backquote 1
  | parameter (rest : Bytes) (hb : m.source.unread = byteOf '\x7d' :: rest) : Closes m .parameter 1
  | simple : Closes m .simple 0

/-- A parameter of one byte behind the dollar. -/
def Machine.pushParameter (m : Machine) (quote : Quote) (physical : ℕ) : Step :=
  match m.push .simple .parameter quote physical with
  | .error m => .done .error m
  | .ok m => .attempt (m.pop 0)

/-- The opening of an arithmetic candidate. -/
def Machine.pushArithmetic (m : Machine) (quote : Quote) (physical thirdPhysical : ℕ) : Step :=
  match (m.checkpointArithmetic physical quote).push .arithmetic .arithmetic quote thirdPhysical with
  | .error m => .done .error m
  | .ok m =>
    .again (m.onLexer fun l =>
      { l with arithmetic := l.arithmetic.modifyHead fun c => { c with bodyBegin := l.raw.length } })

/-- The close of an arithmetic candidate. -/
def Machine.popArithmetic (m : Machine) (previous : List Checkpoint) (physical : ℕ) : Step :=
  match m.pop physical with
  | .error m => .done .error m
  | .ok m => .again (m.onLexer fun l => { l with arithmetic := previous })

/-- One more byte of an operator. -/
def Machine.extendOperator (m : Machine) (text : Bytes) (kind : TokenKind) (physical : ℕ) : Step :=
  match (m.onLexer fun l => { l with kind }).delimiter .none physical with
  | .error m => .done .error m
  | .ok m => .again (m.onLexer fun l => { l with operatorText := text })

/-- A newline token. -/
def Machine.newlineToken (m : Machine) : Step :=
  match (m.startToken.onLexer fun l => { l with kind := .newline }).consume 1 with
  | .error m => .done .error m
  | .ok m => m.publish

/-- The first byte of an operator. -/
def Machine.startOperator (m : Machine) (byte : UInt8) (kind : Lexer → TokenKind) : Step :=
  .attempt ((m.startToken.onLexer fun l =>
    { l with operatorText := [byte], kind := kind l }).consume 1)

/-- The ends of a round in an operator. -/
inductive OperatorRound (m : Machine) : Step → Prop
  | more {m₁ : Machine} (h : Readies d m m₁) : OperatorRound m (.done .more m₁)
  | publish {m₁ : Machine} (h : Readies d m m₁) (hl : m₁.lexer = m.lexer) :
      OperatorRound m m₁.publish
  | extend {m₁ : Machine} (h : Readies d m m₁) (hl : m₁.lexer = m.lexer) (byte : UInt8)
      (count : ℕ) (hp : Peeked d m 0 byte count) (kind : TokenKind)
      (hx : operators.any (fun op => m.lexer.operatorText.isPrefixOf op.1 &&
        decide (m.lexer.operatorText.length < op.1.length)) = true)
      (ho : operators.find? (fun op => op.1 == candidate m.lexer.operatorText byte) =
        some (candidate m.lexer.operatorText byte, kind)) :
      OperatorRound m (m₁.extendOperator (candidate m.lexer.operatorText byte) kind count)

/-- The ends of a round outside operators. -/
inductive Round (m : Machine) : Step → Prop
  | more {m₁ : Machine} (h : Readies d m m₁) : Round m (.done .more m₁)
  | fail {m₁ : Machine} (h : Readies d m m₁) (l : Lexer) (message : Bytes) (number : ℕ)
      (position : Position) : Round m (.done .error (m₁.failAt l message number position))
  | stuck {m₁ : Machine} (h : Readies d m m₁) (hf : m₁.lexer.inFrame .arithmetic = true)
      (ha : m₁.lexer.arithmetic = []) : Round m (.done .error m₁)
  | skip {m₁ : Machine} (h : Readies d m m₁) (hi : m₁.lexer.active = false) (count : ℕ)
      (hs : Skips m₁ count) : Round m (.attempt (m₁.consume count))
  | comment {m₁ : Machine} (h : Readies d m m₁) (hi : m₁.lexer.active = false)
      (hc : m₁.lexer.comment = false) (rest : Bytes)
      (hb : m₁.source.unread = byteOf '#' :: rest) :
      Round m (.again (m₁.onLexer fun l => { l with comment := true }))
  | piece {m₁ : Machine} (h : Readies d m m₁) (hi : m₁.lexer.active = true)
      (kind : FragmentKind) (quote : Quote) (count : ℕ) (hc : Cuts d m₁ kind count) :
      Round m (.attempt (m₁.piece kind quote count))
  | name {m₁ : Machine} (h : Readies d m m₁) (hf : m₁.lexer.inFrame .simple = true)
      (value : UInt8) (quote : Quote) (count : ℕ) (hp : Peeked d m 0 value count)
      (hv : nameByte value = true) : Round m (.attempt (m₁.delimiter quote count))
  | push {m₁ : Machine} (h : Readies d m m₁) (hi : m₁.lexer.active = true)
      (kind : FrameKind) (fragment : FragmentKind) (quote : Quote) (count : ℕ)
      (ho : Opens d m m₁ kind fragment quote count) :
      Round m (.attempt (m₁.push kind fragment quote count))
  | parameter {m₁ : Machine} (h : Readies d m m₁) (hi : m₁.lexer.active = true)
      (rest : Bytes) (hb : m₁.source.unread = byteOf '$' :: rest) (quote : Quote)
      (value : UInt8) (count : ℕ) (hp : Peeked d m 1 value count)
      (hv : digit value = true ∨ (ascii "@*#?-$!").contains value = true) :
      Round m (m₁.pushParameter quote count)
  | pop {m₁ : Machine} (h : Readies d m m₁) (frame : Frame) (rest : List Frame)
      (hf : m₁.lexer.frames = frame :: rest) (count : ℕ) (hc : Closes m₁ frame.kind count) :
      Round m (.attempt (m₁.pop count))
  | candidate {m₁ : Machine} (h : Readies d m m₁) (hi : m₁.lexer.active = true)
      (rest : Bytes) (hb : m₁.source.unread = byteOf '$' :: rest) (quote : Quote)
      (second third : ℕ) (h₂ : Peeked d m 1 (byteOf '(') second)
      (h₃ : ∃ m₀, Readies d m m₀ ∧ (m₀.peek d 1).1 = .byte (byteOf '(') second ∧
        ((m₀.peek d 1).2.peek d 2).1 = .byte (byteOf '(') third) :
      Round m (m₁.pushArithmetic quote second third)
  | expression {m₁ : Machine} (h : Readies d m m₁) (hf : m₁.lexer.inFrame .arithmetic = true)
      (c : Checkpoint) (previous : List Checkpoint) (ha : m₁.lexer.arithmetic = c :: previous)
      (rest : Bytes) (hb : m₁.source.unread = byteOf ')' :: rest) (count : ℕ)
      (hp : Peeked d m 1 (byteOf ')') count) : Round m (m₁.popArithmetic previous count)
  | command {m₁ : Machine} (h : Readies d m m₁) (hi : m₁.lexer.active = true)
      (rest : Bytes) (hb : m₁.source.unread = byteOf '$' :: rest) (quote : Quote) (count : ℕ)
      (hp : Peeked d m 1 (byteOf '(') count) : Round m (dollar.commandOpening quote m₁ count)
  | giveUp {m₁ : Machine} (h : Readies d m m₁) (hf : m₁.lexer.inFrame .arithmetic = true) :
      Round m m₁.giveUp
  | publish {m₁ : Machine} (h : Readies d m m₁) (hi : m₁.lexer.active = true)
      (hf : m₁.lexer.frames = []) : Round m m₁.publish
  | operator {m₁ : Machine} (h : Readies d m m₁) (hi : m₁.lexer.active = false)
      (hc : m₁.lexer.comment = false) (byte : UInt8) (rest : Bytes) (hb : m₁.source.unread = byte :: rest)
      (ho : operatorChar byte = true) (kind : Lexer → TokenKind)
      (hk : ∀ l, kind l = ((operators.find? fun op => op.1 == [byte]).map Prod.snd).getD l.kind) :
      Round m (m₁.startOperator byte kind)
  | newline {m₁ : Machine} (h : Readies d m m₁) (hi : m₁.lexer.active = false)
      (hc : m₁.lexer.comment = false) (rest : Bytes) (hb : m₁.source.unread = byteOf '\n' :: rest) : Round m m₁.newlineToken
  | eof (hf : m.lexer.frames = []) (hi : m.lexer.active = false) (hp : m.parents = []) :
      Round m (.done .eof m)

/-- A group of cases leaves the round as listed, or falls through. -/
def Leaves (m : Machine) (P : Machine → Prop) : Except Step Machine → Prop
  | .error s => Round d m s
  | .ok m₁ => P m₁

/-! ### The list is complete -/

variable {d}

section Peek

variable (m : Machine) (wanted : ℕ)

theorem peek_eq : ∃ c, (m.peek d wanted).2 = { m with source := { m.source with look := some c } } := by
  refine ⟨(lookLoop d m.source.unread m.source.final wanted (m.source.unread.length + 1)
    m.source.lookCache).2, ?_⟩
  simp only [peek]
  split <;> rfl

@[simp] theorem peek_lexer : (m.peek d wanted).2.lexer = m.lexer := by
  obtain ⟨c, h⟩ := peek_eq (d := d) m wanted
  rw [h]

@[simp] theorem peek_unread : (m.peek d wanted).2.source.unread = m.source.unread := by
  obtain ⟨c, h⟩ := peek_eq (d := d) m wanted
  rw [h]
  rfl

@[simp] theorem peek_final : (m.peek d wanted).2.source.final = m.source.final := by
  obtain ⟨c, h⟩ := peek_eq (d := d) m wanted
  rw [h]

end Peek

theorem onFrame_eq (l : Lexer) (f : Frame → Frame) :
    ∃ frames, l.onFrame f = { l with frames } := by
  unfold Lexer.onFrame
  split
  · exact ⟨_, rfl⟩
  · exact ⟨_, rfl⟩

/-- A word stays a word while a round is made ready. -/
theorem Readies.word {m m₁ : Machine} (h : Readies d m m₁)
    (hw : m.lexer.active = true → m.lexer.kind = .word) :
    m₁.lexer.active = true → m₁.lexer.kind = .word := by
  induction h with
  | refl => exact hw
  | look wanted _ ih => rw [peek_lexer]; exact ih
  | clear _ _ ih => exact ih
  | @frame m₁ f _ _ ih =>
    obtain ⟨frames, heq⟩ := onFrame_eq m₁.lexer f
    show (m₁.lexer.onFrame f).active = true → (m₁.lexer.onFrame f).kind = .word
    rw [heq]
    exact ih
  | start _ _ _ _ => exact fun _ => rfl

theorem unread_ne_nil {s : Source} (h : s.data.getD s.cursor 0 ≠ 0) : s.unread ≠ [] := by
  intro hnil
  apply h
  rw [List.getD_eq_getElem?_getD, List.getElem?_eq_none (List.drop_eq_nil_iff.mp hnil)]
  rfl

theorem head_unread {m : Machine} (h : m.source.unread ≠ []) :
    m.source.unread = m.source.data.getD m.source.cursor 0 :: m.source.unread.tail := by
  obtain ⟨byte, rest, hb⟩ := List.exists_cons_of_ne_nil h
  have hd : m.source.data[m.source.cursor]? = some byte := by
    have := congrArg List.head? hb
    rwa [Source.unread, List.head?_drop] at this
  rw [List.getD_eq_getElem?_getD, hd, hb]
  rfl

theorem inFrame_iff {l : Lexer} {kind : FrameKind} :
    l.inFrame kind = true ↔ ∃ frame rest, l.frames = frame :: rest ∧ frame.kind = kind := by
  unfold Lexer.inFrame
  cases l.frames with
  | nil => simp
  | cons frame rest => simp

theorem inFrame_nil {l : Lexer} (h : l.frames = []) (kind : FrameKind) : l.inFrame kind = false := by
  simp [Lexer.inFrame, h]

section StartWord

variable (m : Machine)

theorem startToken_eq : ∃ l, m.startToken =
    { m with source := { m.source with aliasEligible := false }, lexer := l } ∧ l.active = true := by
  unfold startToken
  refine ⟨_, rfl, ?_⟩
  split <;> rfl

@[simp] theorem startWord_unread : m.startWord.source.unread = m.source.unread := by
  unfold startWord
  split <;> rfl

@[simp] theorem startWord_final : m.startWord.source.final = m.source.final := by
  unfold startWord
  split <;> rfl

theorem startWord_active : m.startWord.lexer.active = true := by
  unfold startWord
  split
  · assumption
  · obtain ⟨l, h, hl⟩ := startToken_eq m
    simp only [h, onLexer, hl]

variable {m}

theorem startWord_readies {m₁ : Machine} (h : Readies d m m₁) (hc : m₁.lexer.comment = false) :
    Readies d m m₁.startWord := by
  unfold startWord
  split
  · exact h
  · rename_i hi
    exact h.start (by simpa using hi) hc

end StartWord

theorem parameterContext_alike (f : Frame) (byte : Option UInt8) :
    (f.parameterContext byte).kind = f.kind ∧ (f.parameterContext byte).fragment = f.fragment := by
  unfold Frame.parameterContext
  dsimp only
  split <;> (try split) <;> exact ⟨rfl, rfl⟩

namespace Round

variable {m m₁ : Machine}

/-- A text piece of one byte. -/
theorem text (h : Readies d m m₁) (hi : m₁.lexer.active = true) (quote : Quote)
    (hw : d.characterLength m₁.source.unread m₁.source.final = 1) :
    Round d m (.attempt (m₁.piece .text quote 1)) := by
  have hcut : Cuts d m₁ .text 1 := hw ▸ Cuts.text (by rw [hw]; exact Nat.one_pos)
  exact .piece h hi _ _ _ hcut

theorem dollar (h : Readies d m m₁) (hi : m₁.lexer.active = true) (quote : Quote) {rest : Bytes}
    (hb : m₁.source.unread = byteOf '$' :: rest)
    (hw : d.characterLength m₁.source.unread m₁.source.final = 1) :
    Round d m (m₁.dollar d quote) := by
  have hr := h.look 1
  have hi₁ : (m₁.peek d 1).2.lexer.active = true := by rw [peek_lexer, hi]
  have hb₁ : (m₁.peek d 1).2.source.unread = byteOf '$' :: rest := by rw [peek_unread, hb]
  have hw₁ : d.characterLength (m₁.peek d 1).2.source.unread (m₁.peek d 1).2.source.final = 1 := by
    rw [peek_unread, peek_final, hw]
  unfold Machine.dollar
  generalize hp : m₁.peek d 1 = answer at *
  obtain ⟨look, m₂⟩ := answer
  have hpeek : ∀ v n, look = .byte v n → Peeked d m 1 v n := by
    intro v n hl
    exact ⟨m₁, h, by rw [hp, hl]⟩
  dsimp only at hr hi₁ hb₁ hw₁ ⊢
  split
  · rename_i heq
    cases heq
    exact .more hr
  · rename_i next physical m₃ heq
    cases heq
    have hfound := hpeek next physical rfl
    split
    · rename_i hnext
      subst hnext
      exact .push hr hi₁ _ _ _ _ (.parameter _ hb₁ _ _ hfound)
    · split
      · rename_i hnext
        subst hnext
        -- A second parenthesis decides between a candidate and a command.
        have hr₃ := hr.look 2
        have hi₃ : (m₂.peek d 2).2.lexer.active = true := by rw [peek_lexer, hi₁]
        have hb₃ : (m₂.peek d 2).2.source.unread = byteOf '$' :: rest := by rw [peek_unread, hb₁]
        generalize hp₃ : m₂.peek d 2 = answer at *
        obtain ⟨third, m₃⟩ := answer
        dsimp only at hr₃ hi₃ hb₃ ⊢
        split
        · rename_i heq
          cases heq
          exact .more hr₃
        · rename_i look₃ m₄ hne heq
          cases heq
          split
          · rename_i value thirdPhysical
            split
            · rename_i hvalue
              subst hvalue
              exact .candidate hr₃ hi₃ _ hb₃ _ _ _ hfound ⟨m₁, h, by rw [hp], by rw [hp, hp₃]⟩
            · exact .command hr₃ hi₃ _ hb₃ _ _ hfound
          · exact .command hr₃ hi₃ _ hb₃ _ _ hfound
      · split
        · rename_i hnext
          obtain ⟨hnext, -⟩ := hnext
          subst hnext
          exact .push hr hi₁ _ _ _ _ (.dollarSingle _ hb₁ _ hfound)
        · split
          · rename_i hname
            exact .push hr hi₁ _ _ _ _ (.simple _ hb₁ _ _ _ hfound hname)
          · split
            · rename_i hspecial
              exact .parameter hr hi₁ _ hb₁ _ _ _ hfound hspecial
            · exact text hr hi₁ _ hw₁
  · rename_i look' m₃ hne₁ hne₂ heq
    cases heq
    exact text hr hi₁ _ hw₁

theorem word (h : Readies d m m₁) (byte : UInt8) {rest : Bytes}
    (hb : m₁.source.unread = byte :: rest) (hc : m₁.lexer.comment = false)
    (hw : d.characterLength m₁.source.unread m₁.source.final = 1) :
    Round d m (m₁.wordByte d byte) := by
  have hr := startWord_readies h hc
  have hi := startWord_active m₁
  rw [← startWord_unread m₁] at hb hw
  rw [← startWord_final m₁] at hw
  unfold wordByte
  generalize m₁.startWord = m₂ at *
  dsimp only
  split
  · rename_i hq
    obtain ⟨rfl, -, -⟩ := hq
    split
    · rename_i hd
      obtain ⟨frame, rest, hf, hk⟩ := inFrame_iff.mp hd
      exact .pop hr _ _ hf _ (hk ▸ Closes.double _ hb)
    · exact .push hr hi _ _ _ _ (.double _ hb)
  · split
    · rename_i hq
      obtain ⟨rfl, -⟩ := hq
      exact .push hr hi _ _ _ _ (.single _ hb)
    · split
      · rename_i hq
        subst hq
        exact dollar hr hi _ hb hw
      · split
        · rename_i hq
          subst hq
          exact .push hr hi _ _ _ _ (.backquote _ hb _)
        · exact text hr hi _ hw

theorem separator (h : Readies d m m₁) (byte : UInt8) {rest : Bytes}
    (hb : m₁.source.unread = byte :: rest) (hf : m₁.lexer.frames = [])
    (hc : m₁.lexer.comment = false)
    (hs : byte = byteOf ' ' ∨ byte = byteOf '\t' ∨ byte = byteOf '\n' ∨ operatorChar byte = true) :
    Round d m (m₁.separatorStep byte) := by
  unfold separatorStep
  split
  · rename_i hi
    exact .publish h hi hf
  · rename_i hi
    have hi : m₁.lexer.active = false := by simpa using hi
    split
    · rename_i hblank
      exact .skip h hi _ (.blank _ _ hc hb hblank)
    · rename_i hblank
      split
      · rename_i hn
        subst hn
        exact .newline h hi hc _ hb
      · rename_i hn
        have ho : operatorChar byte = true := by tauto
        exact .operator h hi hc _ _ hb ho _ fun _ => rfl

theorem plain (h : Readies d m m₁) (byte : UInt8) {rest : Bytes}
    (hb : m₁.source.unread = byte :: rest) (hc : m₁.lexer.comment = false)
    (hframes : m₁.lexer.active = false → m₁.lexer.frames = [])
    (hw : d.characterLength m₁.source.unread m₁.source.final = 1) :
    Round d m (m₁.plainByte d byte) := by
  have hactive : ∀ {kind}, m₁.lexer.inFrame kind = true → m₁.lexer.active = true := by
    intro kind hk
    obtain ⟨frame, rest, hf, -⟩ := inFrame_iff.mp hk
    by_contra hi
    rw [hframes (by simpa using hi)] at hf
    cases hf
  unfold plainByte
  split
  · rename_i hq
    have hi := (Bool.or_eq_true _ _).mp hq |>.elim hactive hactive
    split
    · rename_i hk
      obtain ⟨frame, rest, hf, hk⟩ := inFrame_iff.mp hk
      split
      · rename_i hclose
        subst hclose
        exact .pop h _ _ hf _ (hk ▸ Closes.dollarSingle _ hb)
      · exact text h hi _ hw
    · rename_i hk
      obtain ⟨frame, rest, hf, hk⟩ :=
        inFrame_iff.mp ((Bool.or_eq_true _ _).mp hq |>.resolve_left hk)
      split
      · rename_i hclose
        subst hclose
        exact .pop h _ _ hf _ (hk ▸ Closes.backquote _ hb)
      · exact text h hi _ hw
  · split
    · rename_i hs
      exact separator h _ hb hs.2.1 hc hs.2.2
    · split
      · rename_i hs
        obtain ⟨-, hi, rfl⟩ := hs
        exact .comment h hi hc _ hb
      · exact word h _ hb hc hw

theorem escape (h : Readies d m m₁) (byte : UInt8) {rest : Bytes}
    (hb : m₁.source.unread = byte :: rest) (hc : m₁.lexer.comment = false)
    (hframes : m₁.lexer.active = false → m₁.lexer.frames = []) :
    Leaves d m (· = m₁) (m₁.escapeByte d byte) := by
  unfold escapeByte
  dsimp only
  split
  · rfl
  · rename_i hbyte
    have hbyte : byte = byteOf '\\' := by simpa using hbyte
    subst hbyte
    rw [hb, List.tail_cons]
    have hnext : ∀ next, next = (if 1 < d.characterLength rest m₁.source.final then none
        else rest.head?) → next = some (byteOf '\n') →
        ∃ rest', m₁.source.unread = byteOf '\\' :: byteOf '\n' :: rest' := by
      intro next heq hn
      rw [heq] at hn
      split at hn
      · cases hn
      · obtain ⟨rest', rfl⟩ := List.head?_eq_some_iff.mp hn
        exact ⟨rest', hb⟩
    generalize hgen : (if 1 < d.characterLength rest m₁.source.final then none
      else rest.head?) = next
    split
    · split
      · exact Round.fail h _ _ _ _
      · exact Round.more h
    · rename_i hrest
      split
      · exact Round.more h
      · rename_i hw₀
        have hpos : 0 < d.characterLength rest m₁.source.final := Nat.pos_of_ne_zero hw₀
        split
        · rename_i hk
          obtain ⟨frame, frames, hf, -⟩ := inFrame_iff.mp hk
          have hi : m₁.lexer.active = true := by
            by_contra hi
            rw [hframes (by simpa using hi)] at hf
            cases hf
          exact Round.piece h hi _ _ _ (.escape _ hb hpos)
        · split
          · rename_i hcont
            obtain ⟨rest', hb'⟩ := hnext next hgen.symm hcont.1
            by_cases hi : m₁.lexer.active = true
            · rw [if_pos hi]
              exact Round.piece h hi _ _ _ (.continuation _ hb')
            · rw [if_neg hi]
              exact Round.skip h (by simpa using hi) _ (.continuation _ hc hb')
          · split
            · rw [← startWord_unread m₁] at hb
              rw [← startWord_final m₁] at hpos ⊢
              exact Round.piece (startWord_readies h hc) (startWord_active m₁) _ _ _ (.escape _ hb hpos)
            · rfl

/-- What the arithmetic cases leave as it is. -/
structure Alike (m₁ m₂ : Machine) : Prop where
  unread : m₂.source.unread = m₁.source.unread
  final : m₂.source.final = m₁.source.final
  comment : m₂.lexer.comment = m₁.lexer.comment
  frames : m₁.lexer.frames = [] → m₂.lexer.frames = []
  active : m₂.lexer.active = m₁.lexer.active

theorem onFrame_frames (l : Lexer) (f : Frame → Frame) (h : l.frames = []) :
    (l.onFrame f).frames = [] := by
  unfold Lexer.onFrame
  split
  · exact h
  · rename_i hcons
    rw [h] at hcons
    cases hcons

theorem alike_onFrame (m : Machine) (f : Frame → Frame) :
    Alike m (m.onLexer fun l => l.onFrame f) := by
  obtain ⟨frames, h⟩ := onFrame_eq m.lexer f
  refine ⟨rfl, rfl, ?_, fun hne => onFrame_frames _ _ hne, ?_⟩
  · show (m.lexer.onFrame f).comment = _
    rw [h]
  · show (m.lexer.onFrame f).active = _
    rw [h]

theorem arithmetic (h : Readies d m m₁) (byte : UInt8) {rest : Bytes}
    (hb : m₁.source.unread = byte :: rest) :
    Leaves d m (fun m₂ => Readies d m m₂ ∧ Alike m₁ m₂) (m₁.arithmeticByte d byte) := by
  have hsame : Alike m₁ m₁ := ⟨rfl, rfl, rfl, id, rfl⟩
  have hframe := alike_onFrame m₁
  unfold arithmeticByte
  split
  · exact ⟨h, hsame⟩
  · rename_i hk
    have hk : m₁.lexer.inFrame .arithmetic = true := by simpa using hk
    split
    · exact Round.giveUp h hk
    · split
      · exact ⟨h.frame _ fun _ => ⟨rfl, rfl⟩, hframe _⟩
      · split
        · rename_i hbyte
          subst hbyte
          split
          · exact ⟨h.frame _ fun _ => ⟨rfl, rfl⟩, hframe _⟩
          · split
            · rename_i ha
              exact Round.stuck h hk ha
            · rename_i c previous ha
              split
              · exact Round.fail h _ _ _ _
              · exact Round.giveUp h hk
              · -- The expression is complete; the next byte closes it or does not.
                have hr := h.look 1
                have hk₁ : (m₁.peek d 1).2.lexer.inFrame .arithmetic = true := by
                  rw [peek_lexer, hk]
                have ha₁ : (m₁.peek d 1).2.lexer.arithmetic = c :: previous := by
                  rw [peek_lexer, ha]
                have hb₁ : (m₁.peek d 1).2.source.unread = byteOf ')' :: rest := by
                  rw [peek_unread, hb]
                have halike : Alike m₁ (m₁.peek d 1).2 :=
                  ⟨peek_unread _ _, peek_final _ _, by rw [peek_lexer], by rw [peek_lexer]; exact id,
                    by rw [peek_lexer]⟩
                generalize hp : m₁.peek d 1 = answer at *
                obtain ⟨look, m₂⟩ := answer
                dsimp only at hr hk₁ ha₁ hb₁ halike ⊢
                split
                · rename_i heq
                  cases heq
                  exact Round.more hr
                · rename_i heq
                  cases heq
                  exact ⟨hr, halike⟩
                · rename_i next physical m₃ heq
                  cases heq
                  split
                  · rename_i hnext
                    subst hnext
                    have hround := Round.expression hr hk₁ c previous ha₁ _ hb₁ physical
                      ⟨m₁, h, by rw [hp]⟩
                    unfold popArithmetic at hround
                    split <;> rename_i hpop <;> rw [hpop] at hround <;> exact hround
                  · exact Round.giveUp hr hk₁
                · rename_i heq
                  cases heq
                  exact Round.giveUp hr hk₁
        · exact ⟨h, hsame⟩

theorem byte (h : Readies d m m₁) (byte : UInt8) {rest : Bytes}
    (hb : m₁.source.unread = byte :: rest) (hc : m₁.lexer.comment = false)
    (hframes : m₁.lexer.active = false → m₁.lexer.frames = [])
    (hw : d.characterLength m₁.source.unread m₁.source.final = 1) :
    Round d m (m₁.byteStep d byte) := by
  unfold byteStep
  split
  · rename_i hk
    obtain ⟨frame, frames, hf, hk⟩ := inFrame_iff.mp hk
    split
    · rename_i hq
      subst hq
      exact .pop h _ _ hf _ (hk ▸ Closes.single _ hb)
    · have hi : m₁.lexer.active = true := by
        by_contra hi
        rw [hframes (by simpa using hi)] at hf
        cases hf
      exact text h hi _ hw
  · split
    · rename_i hk
      obtain ⟨hk, rfl⟩ := hk
      obtain ⟨frame, frames, hf, hk⟩ := inFrame_iff.mp hk
      exact .pop h _ _ hf _ (hk ▸ Closes.parameter _ hb)
    · -- Whatever the header state, the cases below only see a readied machine.
      have hready : ∀ {m₂}, Readies d m m₂ → Alike m₁ m₂ →
          Round d m (match m₂.arithmeticByte d byte with
            | .error s => s
            | .ok m₃ =>
              match m₃.escapeByte d byte with
              | .error s => s
              | .ok m₄ => m₄.plainByte d byte) := by
        intro m₂ h₂ hl₂
        have harith := arithmetic h₂ byte (hl₂.unread.trans hb)
        generalize m₂.arithmeticByte d byte = leave at harith
        cases leave with
        | error s => exact harith
        | ok m₃ =>
          obtain ⟨h₃, hl₃⟩ := harith
          have hb₃ : m₃.source.unread = byte :: rest := hl₃.unread.trans (hl₂.unread.trans hb)
          have hc₃ : m₃.lexer.comment = false := hl₃.comment.trans (hl₂.comment.trans hc)
          have hf₃ : m₃.lexer.active = false → m₃.lexer.frames = [] := by
            intro hi
            exact hl₃.frames (hl₂.frames (hframes (by rw [← hl₂.active, ← hl₃.active, hi])))
          have hw₃ : d.characterLength m₃.source.unread m₃.source.final = 1 := by
            rw [hl₃.unread, hl₂.unread, hl₃.final, hl₂.final, hw]
          have hescape := escape h₃ byte hb₃ hc₃ hf₃
          dsimp only
          generalize m₃.escapeByte d byte = leave at hescape
          cases leave with
          | error s => exact hescape
          | ok m₄ =>
            cases hescape
            exact plain h₃ byte hb₃ hc₃ hf₃ hw₃
      dsimp only
      by_cases hp : m₁.lexer.inFrame .parameter ∧ byte ≠ byteOf '\\'
      · rw [if_pos hp]
        exact hready (h.frame _ fun x => parameterContext_alike x _) (alike_onFrame _ _)
      · rw [if_neg hp]
        exact hready h ⟨rfl, rfl, rfl, id, rfl⟩

theorem wide (h : Readies d m m₁) (hc : m₁.lexer.comment = false)
    (hw : 0 < d.characterLength m₁.source.unread m₁.source.final) :
    Round d m (m₁.wideStep (d.characterLength m₁.source.unread m₁.source.final)) := by
  have hr := startWord_readies h hc
  have hi := startWord_active m₁
  have hready : ∀ {m₂}, Readies d m m₂ → m₂.lexer.active = true →
      m₂.source.unread = m₁.source.unread → m₂.source.final = m₁.source.final →
      Round d m (.attempt (m₂.piece .text m₂.lexer.frameQuote
        (d.characterLength m₁.source.unread m₁.source.final))) := by
    intro m₂ h₂ hi₂ hu hf
    rw [← hu, ← hf] at hw ⊢
    exact .piece h₂ hi₂ _ _ _ (.text hw)
  unfold wideStep
  dsimp only
  split
  · have hl := alike_onFrame m₁.startWord fun f => f.parameterContext none
    exact hready (hr.frame _ fun x => parameterContext_alike x _) (hl.active.trans hi)
      (hl.unread.trans (startWord_unread _)) (hl.final.trans (startWord_final _))
  · exact hready hr hi (startWord_unread _) (startWord_final _)

theorem simple (h : Readies d m m₁) (hk : m₁.lexer.inFrame .simple = true) :
    Round d m (m₁.simpleStep d) := by
  obtain ⟨frame, frames, hf, hkind⟩ := inFrame_iff.mp hk
  have hr := h.look 0
  have hk₁ : (m₁.peek d 0).2.lexer.inFrame .simple = true := by rw [peek_lexer, hk]
  have hf₁ : (m₁.peek d 0).2.lexer.frames = frame :: frames := by rw [peek_lexer, hf]
  unfold simpleStep
  dsimp only
  generalize hp : m₁.peek d 0 = answer at *
  obtain ⟨look, m₂⟩ := answer
  dsimp only at hr hk₁ hf₁ ⊢
  split
  · rename_i heq
    cases heq
    exact .more hr
  · rename_i next physical m₃ heq
    cases heq
    split
    · rename_i hname
      exact .name hr hk₁ next _ _ ⟨m₁, h, by rw [hp]⟩ hname
    · exact .pop hr _ _ hf₁ _ (hkind ▸ Closes.simple)
  · rename_i heq
    cases heq
    exact .pop hr _ _ hf₁ _ (hkind ▸ Closes.simple)

theorem atEof (m : Machine) : Round d m m.eof := by
  unfold Machine.eof
  split
  · rename_i frame frames hf
    split
    · rename_i hk
      exact .pop .refl _ _ hf _ (hk ▸ Closes.simple)
    · exact .fail .refl _ _ _ _
  · rename_i hf
    split
    · rename_i hi
      exact .publish .refl hi hf
    · rename_i hi
      split
      · rename_i hp
        exact .eof hf (by simpa using hi) hp
      · exact .fail .refl _ _ _ _

end Round

theorem operatorStep_round (m : Machine) : OperatorRound d m (m.operatorStep d) := by
  have hr := (Readies.refl (d := d) (m := m)).look 0
  have hl : (m.peek d 0).2.lexer = m.lexer := peek_lexer _ _
  unfold operatorStep
  dsimp only
  split
  · rename_i hx
    generalize hp : m.peek d 0 = answer at *
    obtain ⟨look, m₂⟩ := answer
    dsimp only at hr hl ⊢
    split
    · rename_i heq
      cases heq
      exact .more hr
    · rename_i byte physical m₃ heq
      cases heq
      split
      · exact .publish hr hl
      · rename_i op hop
        have htext : op.1 = candidate m.lexer.operatorText byte := by
          have := List.find?_some hop
          simpa using this
        exact .extend hr hl byte physical ⟨m, .refl, by rw [hp]⟩ op.2 hx (by rw [hop, ← htext])
    · rename_i heq
      cases heq
      exact .publish hr hl
  · exact .publish .refl rfl

/-- Every round is one of those listed. -/
theorem step_round {m : Machine} (hframes : m.lexer.active = false → m.lexer.frames = [])
    (hcomment : m.lexer.comment = true → m.lexer.active = false) :
    (m.lexer.active = true ∧ m.lexer.kind ≠ .word ∧ OperatorRound d m (m.step d)) ∨
      (m.lexer.active = true → m.lexer.kind = .word) ∧ Round d m (m.step d) := by
  unfold step
  split
  · rename_i h
    exact .inl ⟨h.1, h.2, operatorStep_round m⟩
  · rename_i hop
    refine .inr ⟨fun hi => by simpa [hi] using hop, ?_⟩
    split
    · split
      · exact .atEof m
      · exact .more .refl
    · rename_i hne
      have hb := head_unread hne
      dsimp only
      generalize m.source.data.getD m.source.cursor 0 = byte at hb ⊢
      split
      · exact .fail .refl _ _ _ _
      · rename_i h0
        split
        · rename_i hc
          exact .skip .refl (hcomment hc.1) _ (.comment hc.1 _ _ hb h0 hc.2)
        · rename_i hc
          have hr : Readies d m (m.onLexer fun l => { l with comment := false }) := by
            refine Readies.clear ?_ .refl
            intro hset
            rw [hb]
            by_contra hn
            exact hc ⟨hset, fun h => hn (by rw [h]; rfl)⟩
          split
          · rename_i hk
            exact .simple hr hk
          · split
            · exact .more hr
            · rename_i hw₀
              split
              · exact .wide hr rfl (Nat.pos_of_ne_zero hw₀)
              · rename_i hw
                exact .byte hr byte hb rfl hframes (by omega)

end Lexical
end CShell
