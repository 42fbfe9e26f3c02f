import CShell.Parse.Lines

/-!
# Lines of words

A line of words with blanks between them is one simple command.  The parser looks one
token ahead, so that behind every word the next one is read before the word is put into
the command; no token of the line is an operator, and only the first word stands where an
alias is looked up.

## Main definitions

* `Spelled` — a word of ordinary bytes and quoted parts.
* `tailText ws` — the rest of a line: blanks, words and the newline.
* `Ready s text`, `Facing s word text` — a parse between two tokens, and with a token in
  the lookahead.
* `Begins aliases t` — a word that may begin a command.
* `OneCommand tree ws` — the tree of one simple command.

## Main results

* `simpleLoop_words` — the words of the line become those of the command.
* `next_line` — **a line of words is parsed as one simple command.**
* `next_eof` — behind the last line the input is at its end.

## References

`src/parser.c`.
-/

namespace CShell
namespace Parse

open Lexical Quoting Program

variable {d current : Decoder} {rounds : ℕ} {list : Option (Closing → Bool → Position → P Ast)}

/-! ### Lines of words -/

/-- A word of ordinary bytes and quoted parts. -/
structure Spelled where
  lead : Bytes
  parts : List Part
  ordinary : ∀ byte ∈ lead, Quoting.ordinary byte = true
  fine : ∀ part ∈ parts, part.Fine
  nonempty : lead ≠ [] ∨ parts ≠ []

namespace Spelled

/-- How the word is written. -/
def text (w : Spelled) : Bytes := w.lead ++ spelling w.parts

/-- What the word stands for. -/
def field (w : Spelled) : Bytes := w.lead ++ meaning w.parts

/-- A token that was made of the word. -/
structure Made (w : Spelled) (t : Token) : Prop where
  word : QuotedWord t w.lead w.parts
  eligible : t.aliasEligible = false

end Spelled

/-- What follows a word of a line: more words behind blanks, and the newline. -/
def tailText : List Spelled → Bytes
  | [] => [byteOf '\n']
  | w :: ws => byteOf ' ' :: (w.text ++ tailText ws)

theorem tailText_head (ws : List Spelled) (rest : Bytes) :
    ∃ sep more, tailText ws ++ rest = sep :: more ∧ sep ∈ breaks := by
  cases ws with
  | nil => exact ⟨byteOf '\n', rest, rfl, by decide⟩
  | cons w ws => exact ⟨byteOf ' ', w.text ++ tailText ws ++ rest, rfl, by decide⟩

/-! ### Parses at the root -/

/-- A parse at the root between two tokens, with this text still to be read. -/
structure Ready (s : Run) (text : Bytes) : Prop where
  parents : s.parents = []
  look : s.frame.look = none
  pending : s.frame.pending = []
  eof : s.frame.eof = false
  documents : s.frame.documents = []
  final : s.parser.final = false
  between : Between (s.parser.machine, s.parser.input) text

/-- A parse at the root with a token in the lookahead, and this text behind it. -/
structure Facing (s : Run) (word : Word) (text : Bytes) : Prop where
  look : s.frame.look = some word
  behind : Ready s.discard text

/-- The parse went on without reading a line it was not to read: the aliases are as they
were, and no byte came back. -/
structure Onward (s s' : Run) : Prop where
  aliases : s'.parser.aliases = s.parser.aliases
  incoming : s'.parser.input.incoming.length ≤ s.parser.input.incoming.length
  failure : s'.parser.failure = s.parser.failure
  eof : s'.parser.eof = s.parser.eof

theorem Onward.refl (s : Run) : Onward s s := ⟨rfl, Nat.le_refl _, rfl, rfl⟩

theorem Onward.trans {s s' s'' : Run} (h : Onward s s') (h' : Onward s' s'') : Onward s s'' :=
  ⟨h'.aliases.trans h.aliases, Nat.le_trans h'.incoming h.incoming, h'.failure.trans h.failure,
    h'.eof.trans h.eof⟩

/-- The token is read into the lookahead. -/
theorem peekRaw_ready {s : Run} {text text' : Bytes} {t : Token} (h : Ready s text)
    (ht : Comes d (s.parser.machine, s.parser.input) t text')
    (hrounds : s.parser.input.incoming.length < rounds) :
    ∃ s', (peekRaw d rounds list).run s = (.ok (some (.mk t [])), s') ∧ Facing s' (.mk t []) text' ∧
      Onward s s' := by
  obtain ⟨x', m'', ⟨k, hfetches, hk⟩, hdone, hbetween⟩ := ht
  obtain ⟨events, hrun⟩ := @peekLoop_fetches d list t m'' k rounds 0 _ x' hfetches hdone s h.between.quiet
    (.refl _) (by simp) rfl h.parents h.final (by dsimp only at hk; omega)
  rw [h.pending] at hrun
  have hcall : (peekRaw d rounds list).run s = (peekLoop d list rounds).run s := by
    unfold peekRaw
    rw [run_bind_ok (run_gets id s)]
    simp only [id, h.look, h.eof, Option.isSome_none, Bool.false_eq_true, if_false]
  refine ⟨_, hcall.trans hrun, ⟨rfl, ?_⟩, ⟨rfl, ?_, rfl, rfl⟩⟩
  · exact ⟨h.parents, rfl, rfl, h.eof, h.documents, h.final, hbetween⟩
  · dsimp only at hk ⊢
    omega

/-- The token is in the lookahead already. -/
theorem peekRaw_facing {s : Run} {word : Word} (h : s.frame.look = some word) :
    (peekRaw d rounds list).run s = (.ok (some word), s) := by
  unfold peekRaw
  rw [run_bind_ok (run_gets id s)]
  simp only [id, h, Option.isSome_some, if_true]
  rfl

/-! ### Words that no alias replaces -/

/-- `peek_alias` lets the token pass: it is no word, or no place to look it up, or there is
no alias of its name. -/
def Passes (aliases : Option (Bytes → Option Bytes)) (commandPosition : Bool) (token : Token) : Prop :=
  token.kind ≠ .word ∨ (commandPosition = false ∧ token.aliasEligible = false) ∨
    ioNumber token = false ∧
      ∀ table, aliases = some table → ∀ machine, Run.aliasFor table machine token = none

/-- A token that passes stays in the lookahead. -/
theorem aliasLoop_passes {s s₁ : Run} {word : Word} {text : Bytes} {place : Place} {commandPosition : Bool}
    (hraw : (peekRaw d rounds list).run s = (.ok (some word), s₁)) (h : Facing s₁ word text)
    (hpasses : Passes s₁.parser.aliases commandPosition word.token) (n : ℕ) :
    ∃ s', (aliasLoop d rounds list place commandPosition (n + 1)).run s = (.ok (some word), s') ∧
      Facing s' word text ∧ Onward s₁ s' := by
  rw [aliasLoop, run_bind_ok hraw]
  dsimp only
  rw [run_bind_ok (run_gets id s₁)]
  simp only [id]
  cases haliases : s₁.parser.aliases with
  | none => exact ⟨s₁, rfl, h, .refl s₁⟩
  | some table =>
    dsimp only
    by_cases hkeep : (word.token.kind != .word || (!commandPosition && !word.token.aliasEligible) ||
        reserved word.token) = true
    · rw [if_pos hkeep]
      exact ⟨s₁, rfl, h, .refl s₁⟩
    · rw [if_neg hkeep]
      -- the word is looked up, and there is no such alias
      have hword : word.token.kind = .word := by
        by_contra hne
        exact hkeep (by simp [hne])
      obtain ⟨hnumber, hnone⟩ : ioNumber word.token = false ∧
          ∀ machine, Run.aliasFor table machine word.token = none := by
        rcases hpasses with hkind | ⟨hposition, heligible⟩ | ⟨hnumber, hnone⟩
        · exact absurd hword hkind
        · exact absurd (by simp [hposition, heligible]) hkeep
        · exact ⟨hnumber, hnone table haliases⟩
      refine ⟨s₁.note (.lookup place word.token table s₁.parser.machine), ?_, ?_, ⟨haliases.symm ▸ haliases, Nat.le_refl _, rfl, rfl⟩⟩
      · rw [hnumber]
        simp only [Bool.false_eq_true, if_false]
        rw [run_bind_ok (run_pure false s₁)]
        simp only [Bool.false_eq_true, if_false]
        have hlookup : (Program.update (ε := Stop) (Run.lookup place word.token table)).run s₁ =
            (.ok none, s₁.note (.lookup place word.token table s₁.parser.machine)) := by
          rw [run_update]
          unfold Run.lookup
          rw [hnone]
        rw [run_bind_ok hlookup]
        rfl
      · exact ⟨h.look, ⟨h.behind.parents, rfl, rfl, h.behind.eof, h.behind.documents, h.behind.final,
          h.behind.between⟩⟩

/-- A token in the lookahead is looked at again. -/
theorem peekAlias_facing {s : Run} {word : Word} {text : Bytes} {place : Place} {commandPosition : Bool}
    (h : Facing s word text) (hpasses : Passes s.parser.aliases commandPosition word.token)
    (hrounds : 0 < rounds) :
    ∃ s', (peekAlias d rounds list place commandPosition).run s = (.ok (some word), s') ∧
      Facing s' word text ∧ Onward s s' := by
  obtain ⟨n, rfl⟩ : ∃ n, rounds = n + 1 := ⟨rounds - 1, by omega⟩
  exact aliasLoop_passes (peekRaw_facing h.look) h hpasses n

/-- A token is read into the lookahead and passes. -/
theorem peekAlias_ready {s : Run} {t : Token} {text text' : Bytes} {place : Place} {commandPosition : Bool}
    (h : Ready s text) (ht : Comes d (s.parser.machine, s.parser.input) t text')
    (hpasses : Passes s.parser.aliases commandPosition t)
    (hrounds : s.parser.input.incoming.length < rounds) :
    ∃ s', (peekAlias d rounds list place commandPosition).run s = (.ok (some (.mk t [])), s') ∧
      Facing s' (.mk t []) text' ∧ Onward s s' := by
  obtain ⟨s₁, hraw, hfacing, honward⟩ := @peekRaw_ready d rounds list s text text' t h ht hrounds
  obtain ⟨n, rfl⟩ : ∃ n, rounds = n + 1 := ⟨rounds - 1, by omega⟩
  rw [← honward.aliases] at hpasses
  obtain ⟨s', hrun, hfacing', honward'⟩ := @aliasLoop_passes d (n + 1) list s s₁ _ _ place commandPosition hraw hfacing hpasses n
  exact ⟨s', hrun, hfacing', honward.trans honward'⟩

/-! ### The tokens of a line -/

/-- Behind a word comes the next one, over the blank. -/
theorem Between.next (hd : d.QuoteSafe) {x : Machine × Input} {w : Spelled} {ws : List Spelled} {rest : Bytes}
    (h : Between x (tailText (w :: ws) ++ rest)) :
    ∃ t, Comes d x t (tailText ws ++ rest) ∧ w.Made t := by
  have hblank : Between x ([byteOf ' '] ++ (w.lead ++ spelling w.parts ++ (tailText ws ++ rest))) := by
    simpa [tailText, Spelled.text] using h
  obtain ⟨x₁, hleads, hbetween⟩ := hblank.blanks (d := d) (by simp)
  obtain ⟨sep, more, htail, hsep⟩ := tailText_head ws rest
  rw [htail] at hbetween ⊢
  obtain ⟨t, ⟨x', m'', hleads', hdone, hbetween'⟩, hword, heligible⟩ :=
    hbetween.word hd w.ordinary w.fine w.nonempty hsep
  exact ⟨t, ⟨x', m'', hleads.trans hleads', hdone, hbetween'⟩, hword, heligible⟩

/-- The first word of a line. -/
theorem Between.first (hd : d.QuoteSafe) {x : Machine × Input} {w : Spelled} {ws : List Spelled} {rest : Bytes}
    (h : Between x (w.text ++ (tailText ws ++ rest))) :
    ∃ t, Comes d x t (tailText ws ++ rest) ∧ w.Made t := by
  obtain ⟨sep, more, htail, hsep⟩ := tailText_head ws rest
  rw [htail] at h ⊢
  obtain ⟨t, hcomes, hword, heligible⟩ := Between.word hd h w.ordinary w.fine w.nonempty hsep
  exact ⟨t, hcomes, hword, heligible⟩

theorem Spelled.Made.passes {w : Spelled} {t : Token} (h : w.Made t)
    (aliases : Option (Bytes → Option Bytes)) : Passes aliases false t := .inr (.inl ⟨rfl, h.eligible⟩)

/-- The next token of a line is in the lookahead, a word of it or the newline. -/
def Follows (s : Run) (t : Token) (rest : Bytes) : List Spelled → Prop
  | [] => t.kind = .newline ∧ Facing s (.mk t []) rest
  | w :: ws => w.Made t ∧ Facing s (.mk t []) (tailText ws ++ rest)

/-- The next token of the line comes into the lookahead, a word of it or the newline. -/
theorem peek_tail (hd : d.QuoteSafe) {s : Run} {ws : List Spelled} {rest : Bytes} {place : Place}
    (h : Ready s (tailText ws ++ rest)) (hrounds : s.parser.input.incoming.length < rounds) :
    ∃ s' t, (peek d rounds list place).run s = (.ok (some (.mk t [])), s') ∧ Onward s s' ∧
      Follows s' t rest ws := by
  cases ws with
  | nil =>
    obtain ⟨t, hcomes, hkind⟩ := Between.newline (d := d) h.between
    have hpasses : Passes s.parser.aliases false t := .inl (by rw [hkind]; simp)
    obtain ⟨s', hrun, hfacing, honward⟩ :=
      @peekAlias_ready d rounds list s t _ _ place false h hcomes hpasses hrounds
    exact ⟨s', t, hrun, honward, hkind, hfacing⟩
  | cons w ws =>
    obtain ⟨t, hcomes, hmade⟩ := h.between.next hd
    obtain ⟨s', hrun, hfacing, honward⟩ :=
      @peekAlias_ready d rounds list s t _ _ place false h hcomes (hmade.passes _) hrounds
    exact ⟨s', t, hrun, honward, hmade, hfacing⟩

/-- A token in the lookahead that is no word where an alias may stand. -/
theorem peek_facing {s : Run} {word : Word} {text : Bytes} {place : Place} (h : Facing s word text)
    (hpasses : Passes s.parser.aliases false word.token) (hrounds : 0 < rounds) :
    ∃ s', (peek d rounds list place).run s = (.ok (some word), s') ∧ Facing s' word text ∧ Onward s s' :=
  peekAlias_facing h hpasses hrounds

/-- Looking at the next byte changes nothing that is read. -/
theorem Facing.follows {s : Run} {word : Word} {text : Bytes} (h : Facing s word text) :
    Facing (s.followsRedirection d).2 word text ∧ Onward s (s.followsRedirection d).2 := by
  unfold Run.followsRedirection
  have hmachine : ∃ c, (s.parser.machine.followsRedirection d).2 =
      { s.parser.machine with source := { s.parser.machine.source with look := some c } } := by
    obtain ⟨c, hc⟩ := @peek_eq d s.parser.machine 0
    refine ⟨c, ?_⟩
    rw [← hc]
    unfold Machine.followsRedirection
    split
    · next heq => rw [heq]
    · next heq => rw [heq]
  obtain ⟨c, hc⟩ := hmachine
  refine ⟨⟨h.look, ?_⟩, ⟨rfl, Nat.le_refl _, rfl, rfl⟩⟩
  obtain ⟨hparents, -, -, heof, hdocuments, hfinal, hquiet, hactive, hholds, htape⟩ := h.behind
  refine ⟨hparents, rfl, rfl, heof, hdocuments, hfinal, ?_⟩
  show Between ((s.parser.machine.followsRedirection d).2, s.parser.input) text
  rw [hc]
  refine ⟨?_, hactive, ?_, ?_⟩
  · exact ⟨hquiet.failure, hquiet.final, hquiet.parents, hquiet.command, hquiet.aliases, hquiet.eligible,
      hquiet.token⟩
  · exact ⟨hholds.raw, hholds.fragments, hholds.frames, hholds.comment, hholds.document, hholds.kind⟩
  · exact ⟨htape.failure, htape.ended, htape.split, htape.unread, htape.text⟩

/-! ### A simple command -/

/-- A word that begins a simple command. -/
structure Begins (aliases : Option (Bytes → Option Bytes)) (t : Token) : Prop where
  reserved : reserved t = false
  number : ioNumber t = false
  assignment : assignment t = false
  unaliased : ∀ table, aliases = some table → ∀ machine, Run.aliasFor table machine t = none

variable {aliases : Option (Bytes → Option Bytes)}

theorem Begins.passes {t : Token} (h : Begins aliases t)
    (commandPosition : Bool) : Passes aliases commandPosition t := .inr (.inr ⟨h.number, h.unaliased⟩)

/-- A word without quotes is its own text. -/
theorem plainText_bare {t : Token} {lead : Bytes} (h : QuotedWord t lead []) :
    plainText t = some lead ∧ ∃ start finish, t.fragments = leadFragments lead start finish := by
  obtain ⟨start, finish, gs, hfragments, hlays⟩ := h.fragments
  cases hlays
  rw [List.append_nil] at hfragments
  refine ⟨?_, start, finish, hfragments⟩
  have hne : lead ≠ [] := h.nonempty.resolve_right fun hno => hno rfl
  have hraw : t.raw = lead := h.raw.trans (List.append_nil lead)
  have hbytes : t.raw.extract 0 lead.length = lead := by
    rw [hraw]
    simp
  unfold plainText
  rw [hfragments, leadFragments, if_neg hne]
  simp only [plainText.go, fragmentBytes, hbytes]
  simp

/-- Bytes without `=` are no assignment. -/
theorem assignment_bytes {text : Bytes} (h : byteOf '=' ∉ text) (count : ℕ) :
    (∃ n, assignment.bytes text count = .inl n) ∨ assignment.bytes text count = .inr false := by
  induction text generalizing count with
  | nil => exact .inl ⟨count, rfl⟩
  | cons byte text ih =>
    rw [List.mem_cons, not_or] at h
    rw [assignment.bytes, if_neg (Ne.symm h.1)]
    split
    · exact ih h.2 (count + 1)
    · exact .inr rfl

/-- A name that is neither reserved nor an alias begins a command. -/
theorem begins_bare {t : Token} {lead : Bytes}
    (h : QuotedWord t lead []) (hreserved : ∀ text ∈ ["if", "then", "else", "elif", "fi", "do", "done", "case",
      "esac", "while", "until", "for", "in", "\x7b", "\x7d", "!"], lead ≠ ascii text)
    (hnumber : lead.all digit = false) (hassignment : byteOf '=' ∉ lead)
    (halias : ∀ table, aliases = some table → Run.aliasesGet table lead = none) : Begins aliases t := by
  obtain ⟨hplain, start, finish, hfragments⟩ := plainText_bare h
  have hne : lead ≠ [] := h.nonempty.resolve_right fun hno => hno rfl
  refine ⟨?_, ?_, ?_, ?_⟩
  · unfold reserved
    rw [List.any_eq_false]
    intro text htext
    unfold plainEqual
    rw [hplain]
    simp [hreserved text htext]
  · unfold ioNumber
    rw [hplain]
    simp [hnumber]
  · have hraw : t.raw.extract 0 lead.length = lead := by
      rw [h.raw]
      simp
    unfold assignment
    rw [hfragments, leadFragments, if_neg hne]
    simp only [assignment.go, fragmentBytes, hraw]
    rcases assignment_bytes hassignment 0 with ⟨n, hn⟩ | hfalse
    · simp [hn]
    · simp [hfalse]
  · intro table htable machine
    unfold Run.aliasFor
    rw [hplain]
    dsimp only
    rw [halias table htable]

/-- The words of a command that were made of the words of a line, none an assignment. -/
def MadeOf (words : List CommandWord) (ws : List Spelled) : Prop :=
  List.Forall₂ (fun (cw : CommandWord) (w : Spelled) => ∃ t, cw = .mk (.mk t []) false ∧ w.Made t) words ws

/-- The command that is being read has its name, or the word in the lookahead is the name. -/
def Named (c : Simple) (aliases : Option (Bytes → Option Bytes)) (t : Token) : Prop :=
  c.commandName = true ∨ Begins aliases t

theorem Named.passes {c : Simple} {w : Spelled} {t : Token}
    (h : Named c aliases t) (hmade : w.Made t) : Passes aliases (!c.commandName) t := by
  rcases h with hname | hbegins
  · rw [hname]
    exact hmade.passes aliases
  · exact hbegins.passes _

theorem Named.add {c : Simple} {t : Token}
    (h : Named c aliases t) :
    (c.add (.mk t [])).words = c.words ++ [.mk (.mk t []) false] ∧ (c.add (.mk t [])).commandName = true := by
  have hassignment : (!c.commandName && assignment t) = false := by
    rcases h with hname | hbegins
    · simp [hname]
    · simp [hbegins.assignment]
  have htoken : (Word.mk t []).token = t := rfl
  unfold Simple.add
  simp only [htoken, hassignment, Bool.not_false, Bool.or_true, and_self]

/-- One word is put into the command, the next token being in the lookahead then. -/
theorem simpleLoop_step (hd : d.QuoteSafe) {opening : Position} {w : Spelled} {ws : List Spelled}
    {rest : Bytes} {s : Run} {t : Token} {c : Simple} (h : Facing s (.mk t []) (tailText ws ++ rest))
    (hmade : w.Made t) (hnamed : Named c s.parser.aliases t) (hrounds : s.parser.input.incoming.length < rounds)
    (n : ℕ) :
    ∃ s' t', (simpleLoop d current rounds list opening (n + 1) c).run s =
        (simpleLoop d current rounds list opening n (c.add (.mk t []))).run s' ∧ Onward s s' ∧
      Follows s' t' rest ws := by
  have hkind : t.kind = .word := hmade.word.kind
  obtain ⟨s₁, hlook, hfacing₁, honward₁⟩ := @peekAlias_facing d rounds list s _ _
    (if c.commandName then .argument else .command c.words) (!c.commandName) h (hnamed.passes hmade)
    (Nat.zero_lt_of_lt hrounds)
  -- a descriptor may be looked for behind a number
  have hdescriptor : ∃ descriptor s₂, (if ioNumber t then Program.update (Run.followsRedirection d)
      else (pure false : P Bool)).run s₁ = (.ok descriptor, s₂) ∧ Facing s₂ (.mk t []) (tailText ws ++ rest) ∧
        Onward s₁ s₂ := by
    by_cases hnumber : ioNumber t = true
    · rw [if_pos hnumber]
      obtain ⟨hfacing, honward⟩ := hfacing₁.follows (d := d)
      exact ⟨_, _, rfl, hfacing, honward⟩
    · rw [if_neg hnumber]
      exact ⟨false, s₁, rfl, hfacing₁, .refl s₁⟩
  obtain ⟨descriptor, s₂, hfollows, hfacing₂, honward₂⟩ := hdescriptor
  have honward : Onward s s₂ := honward₁.trans honward₂
  obtain ⟨s', t', hpeek, honward', htail⟩ := @peek_tail d rounds list hd s₂.discard ws rest .behindWord
    hfacing₂.behind (Nat.lt_of_le_of_lt honward.incoming hrounds)
  refine ⟨s', t', ?_, honward.trans ⟨honward'.aliases, honward'.incoming, honward'.failure, honward'.eof⟩, htail⟩
  -- the token behind the word is no operator
  have hbehind : t'.kind = .newline ∨ t'.kind = .word := by
    cases ws with
    | nil => exact .inl htail.1
    | cons w' ws => exact .inr htail.1.word.kind
  have hoperator : redirectionKind t'.kind = false ∧ (some t'.kind == some TokenKind.lparen) = false := by
    rcases hbehind with hnewline | hword
    · rw [hnewline]
      exact ⟨rfl, rfl⟩
    · rw [hword]
      exact ⟨rfl, rfl⟩
  have hreserved : (!c.commandName && !c.begun && reserved t) = false := by
    rcases hnamed with hname | hbegins
    · simp [hname]
    · simp [hbegins.reserved]
  have htoken : ∀ t : Token, (Word.mk t []).token = t := fun _ => rfl
  rw [simpleLoop, run_bind_ok hlook]
  dsimp only
  simp only [htoken]
  rw [if_neg (by rw [hkind]; decide), if_neg (by rw [hkind]; decide), if_neg (by simp [hreserved])]
  have hdiscard : (discard : P Unit).run s₂ = (.ok (), s₂.discard) := rfl
  split
  · next hnumber =>
    rw [if_pos hnumber] at hfollows
    rw [run_bind_ok hfollows, run_bind_ok hdiscard, run_bind_ok hpeek]
    simp only [Option.map_some, htoken, hoperator.2, Bool.and_false, Bool.false_eq_true, if_false,
      hoperator.1]
  · next hnumber =>
    rw [if_neg hnumber] at hfollows
    rw [run_bind_ok hfollows, run_bind_ok hdiscard, run_bind_ok hpeek]
    simp only [Option.map_some, htoken, hoperator.2, Bool.and_false, Bool.false_eq_true, if_false,
      hoperator.1]

/-- The newline ends the command. -/
theorem simpleLoop_newline {opening : Position} {rest : Bytes} {s : Run} {newline : Token} {c : Simple}
    (h : Facing s (.mk newline []) rest) (hkind : newline.kind = .newline) (hwords : c.words ≠ [])
    (hrounds : 0 < rounds) (n : ℕ) :
    ∃ s', (simpleLoop d current rounds list opening (n + 1) c).run s =
        (.ok (.simple c.start c.stop c.redirections c.words), s') ∧
      Facing s' (.mk newline []) rest ∧ Onward s s' := by
  have hpasses : Passes s.parser.aliases (!c.commandName) newline := .inl (by rw [hkind]; simp)
  obtain ⟨s', hlook, hfacing, honward⟩ := @peekAlias_facing d rounds list s _ _
    (if c.commandName then .argument else .command c.words) (!c.commandName) h hpasses hrounds
  refine ⟨s', ?_, hfacing, honward⟩
  have htoken : ∀ t : Token, (Word.mk t []).token = t := fun _ => rfl
  rw [simpleLoop, run_bind_ok hlook]
  dsimp only
  simp only [htoken]
  rw [if_neg (by rw [hkind]; decide), if_pos (by rw [hkind]; decide)]
  unfold Simple.finish
  rw [if_neg (by simp [hwords])]
  rfl

/-- **The words of the line become those of the command.** -/
theorem simpleLoop_words (hd : d.QuoteSafe) {opening : Position} {w : Spelled} {ws : List Spelled}
    {rest : Bytes} {s : Run} {t : Token} {c : Simple} {n : ℕ} (h : Facing s (.mk t []) (tailText ws ++ rest))
    (hmade : w.Made t) (hnamed : Named c s.parser.aliases t) (hrounds : s.parser.input.incoming.length < rounds)
    (hn : ws.length + 1 < n) :
    ∃ s' stop words newline, (simpleLoop d current rounds list opening n c).run s =
        (.ok (.simple c.start stop c.redirections (c.words ++ words)), s') ∧
      MadeOf words (w :: ws) ∧ newline.kind = .newline ∧ Facing s' (.mk newline []) rest ∧ Onward s s' := by
  obtain ⟨n, rfl⟩ : ∃ n', n = n' + 2 := ⟨n - 2, by omega⟩
  induction ws generalizing w s t c n with
  | nil =>
    obtain ⟨s₁, newline, hstep, honward₁, hkind, hfacing₁⟩ :=
      @simpleLoop_step d current rounds list hd opening w [] rest s t c h hmade hnamed hrounds (n + 1)
    obtain ⟨hwords, -⟩ := hnamed.add
    obtain ⟨s', hrun, hfacing, honward⟩ :=
      @simpleLoop_newline d current rounds list opening rest s₁ newline (c.add (.mk t [])) hfacing₁ hkind
        (by rw [hwords]; simp) (Nat.zero_lt_of_lt hrounds) n
    refine ⟨s', (c.add (.mk t [])).stop, [.mk (.mk t []) false], newline, ?_, .cons ⟨t, rfl, hmade⟩ .nil, hkind, hfacing,
      honward₁.trans honward⟩
    rw [hstep, hrun, hwords]
    rfl
  | cons w' ws ih =>
    obtain ⟨s₁, t', hstep, honward₁, hmade', hfacing₁⟩ :=
      @simpleLoop_step d current rounds list hd opening w (w' :: ws) rest s t c h hmade hnamed hrounds (n + 1)
    obtain ⟨hwords, hname⟩ := hnamed.add
    obtain ⟨n, rfl⟩ : ∃ n', n = n' + 1 := ⟨n - 1, by rw [List.length_cons] at hn; omega⟩
    obtain ⟨s', stop, words, newline, hrun, hmadeOf, hkind, hfacing, honward⟩ :=
      ih hfacing₁ hmade' (.inl hname) (Nat.lt_of_le_of_lt honward₁.incoming hrounds) n
        (by rw [List.length_cons] at hn; omega)
    refine ⟨s', stop, .mk (.mk t []) false :: words, newline, ?_, .cons ⟨t, rfl, hmade⟩ hmadeOf, hkind, hfacing,
      honward₁.trans honward⟩
    rw [hstep, hrun, hwords, List.append_assoc]
    rfl

/-! ### From the command to the list -/

theorem plainEqual_of_not_reserved {t : Token} (h : reserved t = false) {text : String}
    (hmem : text ∈ ["if", "then", "else", "elif", "fi", "do", "done", "case", "esac", "while", "until", "for",
      "in", "\x7b", "\x7d", "!"]) : plainEqual t text = false := by
  unfold reserved at h
  rw [List.any_eq_false] at h
  simpa using h text hmem

/-- A word that is not reserved begins no compound command. -/
theorem compoundKind_of_not_reserved {t : Token} (hkind : t.kind = .word) (h : reserved t = false) :
    compoundKind t = none := by
  have hplain : ∀ text ∈ ["\x7b", "if", "for", "while", "until", "case"], plainEqual t text = false := by
    intro text htext
    apply plainEqual_of_not_reserved h
    simp only [List.mem_cons, List.not_mem_nil, or_false] at htext ⊢
    tauto
  unfold compoundKind
  rw [if_neg (by rw [hkind]; decide)]
  simp [hplain "\x7b" (by simp), hplain "if" (by simp), hplain "for" (by simp), hplain "while" (by simp),
    hplain "until" (by simp), hplain "case" (by simp)]

/-- A simple command made of the words of a line. -/
def CommandOf (tree : Ast) (ws : List Spelled) : Prop :=
  ∃ start stop words, tree = .simple start stop [] words ∧ MadeOf words ws

/-- The production returns the command and leaves the newline in the lookahead. -/
def Yields (x : P Ast) (s : Run) (ws : List Spelled) (rest : Bytes) : Prop :=
  ∃ s' tree newline, x.run s = (.ok tree, s') ∧ CommandOf tree ws ∧ newline.kind = .newline ∧
    Facing s' (.mk newline []) rest ∧ Onward s s'

section

variable {w : Spelled} {ws : List Spelled} {rest : Bytes} {s : Run} {t : Token}

theorem parseCommand_words (hd : d.QuoteSafe) (h : Facing s (.mk t []) (tailText ws ++ rest)) (hmade : w.Made t)
    (hbegins : Begins s.parser.aliases t) (hrounds : s.parser.input.incoming.length < rounds)
    (hn : ws.length + 1 < rounds) : Yields (parseCommand d current rounds list) s (w :: ws) rest := by
  obtain ⟨s₁, hlook, hfacing₁, honward₁⟩ := @peekAlias_facing d rounds list s _ _ (.command []) true h
    (hbegins.passes true) (Nat.zero_lt_of_lt hrounds)
  rw [← honward₁.aliases] at hbegins
  obtain ⟨s', stop, words, newline, hrun, hmadeOf, hkind, hfacing, honward⟩ :=
    @simpleLoop_words d current rounds list hd (tokenPosition t) w ws rest s₁ t { start := t.start } rounds
      hfacing₁ hmade (.inr hbegins) (Nat.lt_of_le_of_lt honward₁.incoming hrounds) hn
  refine ⟨s', _, newline, ?_, ⟨t.start, stop, words, rfl, hmadeOf⟩, hkind, hfacing, honward₁.trans honward⟩
  have htoken : (Word.mk t []).token = t := rfl
  rw [parseCommand, run_bind_ok hlook]
  simp only [htoken, compoundKind_of_not_reserved hmade.word.kind hbegins.reserved]
  exact hrun

/-- A newline in the lookahead passes. -/
theorem peek_newline {newline : Token} {place : Place} (h : Facing s (.mk newline []) rest)
    (hkind : newline.kind = .newline) (hrounds : 0 < rounds) :
    ∃ s', (peek d rounds list place).run s = (.ok (some (.mk newline [])), s') ∧
      Facing s' (.mk newline []) rest ∧ Onward s s' :=
  peek_facing h (.inl (show newline.kind ≠ .word by rw [hkind]; decide)) hrounds

theorem parsePipeline_words (hd : d.QuoteSafe) (h : Facing s (.mk t []) (tailText ws ++ rest)) (hmade : w.Made t)
    (hbegins : Begins s.parser.aliases t) (hrounds : s.parser.input.incoming.length < rounds)
    (hn : ws.length + 1 < rounds) : Yields (parsePipeline d current rounds list) s (w :: ws) rest := by
  obtain ⟨s₁, hlook, hfacing₁, honward₁⟩ := @peekAlias_facing d rounds list s _ _ (.command []) true h
    (hbegins.passes true) (Nat.zero_lt_of_lt hrounds)
  have hbang : plainEqual t "!" = false := plainEqual_of_not_reserved hbegins.reserved (by simp)
  rw [← honward₁.aliases] at hbegins
  obtain ⟨s₂, tree, newline, hcommand, hof, hkind, hfacing₂, honward₂⟩ :=
    @parseCommand_words d current rounds list _ _ _ _ _ hd hfacing₁ hmade hbegins
      (Nat.lt_of_le_of_lt honward₁.incoming hrounds) hn
  obtain ⟨n, rfl⟩ : ∃ n, rounds = n + 1 := ⟨rounds - 1, by omega⟩
  obtain ⟨s₃, hpeek, hfacing₃, honward₃⟩ :=
    @peek_newline d (n + 1) list rest s₂ newline .operator hfacing₂ hkind (Nat.succ_pos n)
  refine ⟨s₃, tree, newline, ?_, hof, hkind, hfacing₃, (honward₁.trans honward₂).trans honward₃⟩
  have htoken : ∀ t : Token, (Word.mk t []).token = t := fun _ => rfl
  have hloop : (pipelineLoop d current (n + 1) list (n + 1) [tree]).run s₂ = (.ok [tree], s₃) := by
    rw [pipelineLoop, run_bind_ok hpeek]
    simp only [htoken]
    rw [if_neg (by rw [hkind]; decide)]
    rfl
  rw [parsePipeline, run_bind_ok (show position.run s = (.ok s.position, s) from rfl), run_bind_ok hlook]
  simp only [Option.map_some, htoken, hbang, Option.getD_some, Bool.false_eq_true, if_false]
  rw [run_bind_ok hcommand, run_bind_ok hloop]
  rfl

theorem parseAndOr_words (hd : d.QuoteSafe) (h : Facing s (.mk t []) (tailText ws ++ rest)) (hmade : w.Made t)
    (hbegins : Begins s.parser.aliases t) (hrounds : s.parser.input.incoming.length < rounds)
    (hn : ws.length + 1 < rounds) : Yields (parseAndOr d current rounds list) s (w :: ws) rest := by
  obtain ⟨s₁, tree, newline, hpipeline, hof, hkind, hfacing₁, honward₁⟩ :=
    @parsePipeline_words d current rounds list _ _ _ _ _ hd h hmade hbegins hrounds hn
  obtain ⟨n, rfl⟩ : ∃ n, rounds = n + 1 := ⟨rounds - 1, by omega⟩
  obtain ⟨s₂, hpeek, hfacing₂, honward₂⟩ :=
    @peek_newline d (n + 1) list rest s₁ newline .operator hfacing₁ hkind (Nat.succ_pos n)
  refine ⟨s₂, tree, newline, ?_, hof, hkind, hfacing₂, honward₁.trans honward₂⟩
  have htoken : ∀ t : Token, (Word.mk t []).token = t := fun _ => rfl
  rw [parseAndOr, run_bind_ok hpipeline, andOrLoop, run_bind_ok hpeek]
  simp only [htoken]
  rw [if_neg (by rw [hkind]; decide)]
  rfl

/-- The newline is taken; no here-document waits for it. -/
theorem newline_facing {newline : Token} (h : Facing s (.mk newline []) rest) :
    ∃ s', (Parse.newline d rounds).run s = (.ok (), s') ∧ Ready s' rest ∧ Onward s s' := by
  refine ⟨s.discard.clearDocuments, ?_, ?_, ⟨rfl, Nat.le_refl _, rfl, rfl⟩⟩
  · have hdocuments : s.discard.frame.documents = [] := h.behind.documents
    unfold Parse.newline collectDocuments
    rw [run_bind_ok (show (discard : P Unit).run s = (.ok (), s.discard) from rfl),
      run_bind_ok (run_gets id s.discard)]
    simp only [id, hdocuments, collectLoop]
    rfl
  · exact ⟨h.behind.parents, rfl, rfl, h.behind.eof, rfl, h.behind.final, h.behind.between⟩

/-- The tree of a complete command of one simple command. -/
def OneCommand (tree : Ast) (ws : List Spelled) : Prop :=
  ∃ start stop start' stop' command, CommandOf command ws ∧
    tree = .list start stop [.mk command .newline start' stop']

/-- A list of one command, which the newline ends. -/
theorem listBody_words (hd : d.QuoteSafe) (h : Facing s (.mk t []) (tailText ws ++ rest)) (hmade : w.Made t)
    (hbegins : Begins s.parser.aliases t) (hrounds : s.parser.input.incoming.length < rounds)
    (hn : ws.length + 1 < rounds) (opening : Position) :
    ∃ s' tree, (listBody d current rounds list .nothing false opening).run s = (.ok tree, s') ∧
      OneCommand tree (w :: ws) ∧ Ready s' rest ∧ Onward s s' := by
  obtain ⟨n, rfl⟩ : ∃ n, rounds = n + 1 := ⟨rounds - 1, by omega⟩
  have htoken : ∀ t : Token, (Word.mk t []).token = t := fun _ => rfl
  -- the word is no newline
  obtain ⟨s₁, hlook, hfacing₁, honward₁⟩ := @peekAlias_facing d (n + 1) list s _ _ (.command []) true h
    (hbegins.passes true) (Nat.succ_pos n)
  have hskip : (skipNewlines d (n + 1) list (.command [])).run s = (.ok (some (.mk t [])), s₁) := by
    rw [skipNewlines, skipLoop, run_bind_ok hlook]
    simp only [htoken]
    rw [if_neg (by rw [hmade.word.kind]; decide)]
    rfl
  rw [← honward₁.aliases] at hbegins
  obtain ⟨s₂, command, newline, handOr, hof, hkind, hfacing₂, honward₂⟩ :=
    @parseAndOr_words d current (n + 1) list _ _ _ _ _ hd hfacing₁ hmade hbegins
      (Nat.lt_of_le_of_lt honward₁.incoming hrounds) hn
  obtain ⟨s₃, hpeek, hfacing₃, honward₃⟩ :=
    @peek_newline d (n + 1) list rest s₂ newline .operator hfacing₂ hkind (Nat.succ_pos n)
  obtain ⟨s₄, hnewline, hready, honward₄⟩ := @newline_facing d (n + 1) _ _ _ hfacing₃
  refine ⟨s₄, _, ?_, ⟨command.start, newline.stop, newline.start, newline.stop, command, hof, rfl⟩, hready,
    ((honward₁.trans honward₂).trans honward₃).trans honward₄⟩
  have hseparator : separatorOf newline.kind = some .newline := by rw [hkind]; rfl
  rw [listBody, run_bind_ok hskip]
  simp only [Option.map_some, htoken, atClose, Bool.false_eq_true, if_false, Option.isNone_some]
  rw [listLoop, if_neg (by simp), run_bind_ok handOr]
  dsimp only
  rw [run_bind_ok hpeek]
  simp only [htoken, hseparator, if_true]
  rw [run_bind_ok hnewline]
  simp

end

/-! ### Calls of the parser -/

/-- A parser that has not failed and has this text before it. -/
structure Session.Ready (session : Session) (text : Bytes) : Prop where
  failure : session.parser.failure = none
  eof : session.parser.eof = false
  run : Parse.Ready session.toRun text

/-- A new parser on a text that ends with a line. -/
theorem Session.ready_create (input : Input) {text : Bytes} (hincoming : input.incoming = text.map Incoming.byte)
    (hfailure : input.failure = none) (hended : input.ended = false) (hlined : Lined text)
    (aliases : Option (Bytes → Option Bytes)) : ((Session.create input).setAliases aliases).Ready text := by
  refine ⟨rfl, rfl, rfl, rfl, rfl, rfl, rfl, rfl, ?_, rfl, ?_, ?_⟩
  · exact ⟨rfl, rfl, rfl, rfl, rfl, rfl, fun hi => by cases hi⟩
  · exact ⟨rfl, rfl, rfl, rfl, rfl, fun hi => by cases hi⟩
  · exact ⟨hfailure, hended, ⟨text, hincoming, rfl⟩, .inl rfl, hlined⟩

theorem Session.Ready.setAliases {session : Session} {text : Bytes} (h : session.Ready text)
    (aliases : Option (Bytes → Option Bytes)) : (session.setAliases aliases).Ready text :=
  ⟨h.failure, h.eof, h.run.parents, rfl, rfl, rfl, rfl, h.run.final, h.run.between⟩

theorem parseList_eq (stack : ℕ) : parseList d current rounds stack =
    listBody d current rounds (Session.nestedList d current rounds stack) := by
  cases stack <;> rfl

/-- **A line of words is parsed as one simple command**, and the next line is not touched. -/
theorem next_line (hd : d.QuoteSafe) {session : Session} {w : Spelled} {ws : List Spelled} {rest : Bytes}
    (h : session.Ready (w.text ++ (tailText ws ++ rest)))
    (hbegins : ∀ t, w.Made t → Begins session.parser.aliases t)
    (hrounds : session.parser.input.incoming.length < rounds) (hn : ws.length + 1 < rounds) (stack : ℕ) :
    ∃ tree session', session.next d current rounds stack = some (.next .tree (some tree), session') ∧
      OneCommand tree (w :: ws) ∧ session'.Ready rest ∧
      session'.parser.aliases = session.parser.aliases ∧
      session'.parser.input.incoming.length ≤ session.parser.input.incoming.length := by
  obtain ⟨t, hcomes, hmade⟩ := h.run.between.first hd
  have hbegin := hbegins t hmade
  obtain ⟨n, rfl⟩ : ∃ n, rounds = n + 1 := ⟨rounds - 1, by omega⟩
  -- the first token, and the position of the list
  obtain ⟨s₁, hlook, hfacing₁, honward₁⟩ := @peekAlias_ready d (n + 1)
    (Session.nestedList d current (n + 1) stack) session.toRun t _ _ (.command []) true h.run hcomes
    (hbegin.passes true) hrounds
  have hskip : (skipNewlines d (n + 1) (Session.nestedList d current (n + 1) stack) (.command [])).run
      session.toRun = (.ok (some (.mk t [])), s₁) := by
    rw [skipNewlines, skipLoop, run_bind_ok hlook]
    dsimp only
    rw [if_neg (by show ¬ t.kind = _; rw [hmade.word.kind]; decide)]
    rfl
  have hbegin₁ : Begins s₁.parser.aliases t := by
    rw [honward₁.aliases]
    exact hbegin
  obtain ⟨s₂, tree, hlist, hone, hready, honward₂⟩ := @listBody_words d current (n + 1)
    (Session.nestedList d current (n + 1) stack) w ws rest s₁ t hd hfacing₁ hmade hbegin₁
    (Nat.lt_of_le_of_lt honward₁.incoming hrounds) hn s₁.position
  have honward := honward₁.trans honward₂
  have hcommand : (Session.command d current (n + 1) stack).run session.toRun = (.ok (some tree), s₂) := by
    unfold Session.command
    rw [run_bind_ok hskip]
    dsimp only
    rw [run_bind_ok (show position.run s₁ = (.ok s₁.position, s₁) from rfl), parseList_eq]
    show (listBody d current (n + 1) _ .nothing false s₁.position >>= fun a => pure (some a)).run s₁ = _
    rw [run_bind_ok hlist]
    rfl
  refine ⟨tree, Session.ofRun s₂, ?_, hone, ⟨?_, ?_, ?_⟩, honward.aliases, honward.incoming⟩
  · unfold Session.next
    rw [h.failure, h.eof, hcommand]
    rfl
  · exact honward.failure.trans h.failure
  · exact honward.eof.trans h.eof
  · exact ⟨rfl, rfl, rfl, rfl, rfl, hready.final, hready.between⟩

/-- At the end of the input no token comes. -/
theorem peekLoop_eof {s : Run} (h : Ready s []) (n : ℕ) :
    ∃ s', (peekLoop d list (n + 2)).run s = (.ok none, s') := by
  obtain ⟨future, hincoming, hsplit⟩ := h.between.tape.split
  obtain ⟨hunread, hfuture⟩ := List.append_eq_nil_iff.mp hsplit
  subst hfuture
  have hquiet := h.between.quiet
  have hholds := h.between.holds
  have hidle : s.parser.machine.lexer.active = false := h.between.active
  dsimp only at hunread hquiet hholds hincoming
  have hzero : s.depth = 0 := congrArg List.length h.parents
  -- the scanner asks for more, and there is nothing more
  have hstep : s.parser.machine.step d = .done .more s.parser.machine := by
    unfold Machine.step
    rw [if_neg (by simp [hidle]), if_pos hunread, hquiet.final]
    rfl
  have hmore := lexerNext_reaches hquiet (.refl _) (Nat.le_of_eq (Nat.zero_add _)) hstep (by simp)
  have hupdate : (Program.update (ε := Stop) (Run.next d)).run s = (.ok .more, s) := by
    rw [run_update]
    unfold Run.next
    rw [hzero, hmore]
    rfl
  let m₁ : Machine :=
    { source := s.parser.machine.source.compact.append [] true, lexer := s.parser.machine.lexer.feed [] true,
      parents := s.parser.machine.parents.map (Lexer.feed [] true) }
  have hline : ∃ s₁ : Run, s.feedLine = (none, s₁) ∧ s₁.parser.machine = m₁ ∧ s₁.parents = s.parents := by
    have hread : s.parser.input.readLine =
        (.eof, { s.parser.input with incoming := [], position := s.parser.input.position, ended := true }) := by
      unfold Input.readLine
      rw [h.between.tape.failure, h.between.tape.ended, hincoming]
      rfl
    have hfeed : s.parser.machine.feed [] true = (true, m₁) := by
      unfold Machine.feed
      rw [hquiet.failure, hquiet.final]
      rfl
    unfold Run.feedLine
    rw [hread]
    unfold Run.note
    dsimp only
    rw [hfeed]
    exact ⟨_, rfl, rfl, rfl⟩
  obtain ⟨s₁, hfed, hmachine, hparents⟩ := hline
  have hadopt : (orAdopt Run.feedLine).run s = (.ok (), s₁) := by
    unfold orAdopt
    rw [run_bind, run_update, hfed]
    rfl
  -- now it is at the end
  have hstep₁ : m₁.step d = .done .eof m₁ := by
    have hidle₁ : m₁.lexer.active = false := hidle
    have hunread₁ : m₁.source.unread = [] := by
      show s.parser.machine.source.unread ++ [] = []
      rw [hunread]
      rfl
    have hframes : m₁.lexer.frames = [] := hholds.frames
    have hroot : m₁.parents = [] := by
      show s.parser.machine.parents.map _ = []
      rw [hquiet.parents]
      rfl
    unfold Machine.step
    rw [if_neg (by simp [hidle₁]), if_pos hunread₁, if_pos (show m₁.source.final = true from rfl),
      Machine.eof, hframes]
    dsimp only
    rw [hidle₁, if_neg (by simp), hroot]
  have heof : m₁.lexerNext d 0 = (.eof, m₁) := by
    have hfailure : m₁.source.failure = none := hquiet.failure
    have hcommand : m₁.lexer.command = false := hquiet.command
    have hdepth : m₁.depth = 0 := by
      show (s.parser.machine.parents.map _).length = 0
      rw [hquiet.parents]
      rfl
    have hscan : Machine.scanLoop d m₁.rounds m₁ = some (LexResult.eof, m₁) := by
      unfold Machine.rounds
      rw [Machine.scanLoop, hstep₁]
    have hnext : m₁.nextToken d 0 = (.eof, m₁) := by
      unfold Machine.nextToken
      rw [hfailure, hdepth, hcommand, hscan]
      rfl
    unfold Machine.lexerNext
    rw [hfailure, hnext]
    rfl
  refine ⟨{ s₁.onMachine m₁ with frame := { (s₁.onMachine m₁).frame with eof := true } }, ?_⟩
  have hupdate₁ : (Program.update (ε := Stop) (Run.next d)).run s₁ =
      (.ok .eof, { s₁.onMachine m₁ with frame := { (s₁.onMachine m₁).frame with eof := true } }) := by
    rw [run_update]
    unfold Run.next
    rw [show s₁.depth = 0 from congrArg List.length (hparents.trans h.parents), hmachine, heof]
  rw [peekLoop, run_bind_ok hupdate]
  dsimp only
  rw [run_bind_ok hadopt, peekLoop, run_bind_ok hupdate₁]
  rfl

/-- **Behind the last line the input is at its end.** -/
theorem next_eof {session : Session} (h : session.Ready []) (hrounds : 1 < rounds) (stack : ℕ) :
    ∃ session', session.next d current rounds stack = some (.next .eof none, session') := by
  obtain ⟨n, rfl⟩ : ∃ n, rounds = n + 2 := ⟨rounds - 2, by omega⟩
  obtain ⟨s', hloop⟩ :=
    @peekLoop_eof d (Session.nestedList d current (n + 2) stack) session.toRun h.run n
  have hraw : (peekRaw d (n + 2) (Session.nestedList d current (n + 2) stack)).run session.toRun =
      (.ok none, s') := by
    unfold peekRaw
    rw [run_bind_ok (run_gets id session.toRun)]
    exact hloop
  have halias : (peekAlias d (n + 2) (Session.nestedList d current (n + 2) stack) (.command []) true).run
      session.toRun = (.ok none, s') := by
    rw [peekAlias, aliasLoop, run_bind_ok hraw]
    rfl
  have hskip : (skipNewlines d (n + 2) (Session.nestedList d current (n + 2) stack) (.command [])).run
      session.toRun = (.ok none, s') := by
    rw [skipNewlines, skipLoop, run_bind_ok halias]
    rfl
  have hcommand : (Session.command d current (n + 2) stack).run session.toRun = (.ok none, s') := by
    unfold Session.command
    rw [run_bind_ok hskip]
    rfl
  refine ⟨Session.ofRun { s' with parser := { s'.parser with eof := true } }, ?_⟩
  unfold Session.next
  rw [h.failure, h.eof, hcommand]
  rfl

end Parse
end CShell
