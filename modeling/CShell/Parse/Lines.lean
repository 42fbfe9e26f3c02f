import CShell.Parse.Interface
import CShell.Quoting.Expanded

/-!
# Reading words line by line

The parser feeds its lexer one line at a time, and the text of a quoted word may go over
many of them.  A region in single quotes is the only place where the tape of the lexer
runs out in the middle of a word here: the scanner then asks for more, the next line is
fed, and the region goes on as if the tape had been there all along.

## Main definitions

* `Quiet m` — one lexer without aliases, failures and substitutions.
* `Tape m input text` — what is still to be read, on the tape and in the input.
* `Fetches d k x x'` — rounds of the scanner and `k` lines lead from `x` to `x'`.

## Main results

* `step_quiet` — a round outside aliases stays there.
* `Stands.parts` — **the parts of a word are read over line ends.**
* `peekLoop_fetches` — the lookahead is what the scanner comes to.

## References

`src/parser.c` (`peek_raw`, `feed_line`), `src/lexer.c`, `src/input.c`.
-/

namespace CShell
namespace Parse

open Lexical Machine Quoting Program List

variable {d : Decoder} {m m' : Machine}

/-! ### One lexer without aliases -/

/-- The root lexer reads outside aliases, and nothing has failed. -/
structure Quiet (m : Machine) : Prop where
  failure : m.source.failure = none
  final : m.source.final = false
  parents : m.parents = []
  command : m.lexer.command = false
  aliases : m.source.aliases = []
  eligible : m.source.aliasEligible = false
  token : m.lexer.active = true → m.lexer.aliasEligible = false

/-- A tape outside aliases stays outside. -/
def Unaliased (m m' : Machine) : Prop :=
  m.source.aliases = [] →
    m'.source.aliases = [] ∧ m'.source.aliasEligible = m.source.aliasEligible

theorem Unaliased.trans {m'' : Machine} (h : Unaliased m m') (h' : Unaliased m' m'') :
    Unaliased m m'' := by
  intro ha
  obtain ⟨ha', he⟩ := h ha
  obtain ⟨ha'', he'⟩ := h' ha'
  exact ⟨ha'', he'.trans he⟩

theorem consume_unaliased {count : ℕ} (h : m.consume count = .ok m') : Unaliased m m' := by
  induction count generalizing m with
  | zero =>
    cases h
    exact fun ha => ⟨ha, rfl⟩
  | succ count ih =>
    unfold consume at h
    dsimp only at h
    split at h
    · cases h
    · refine Unaliased.trans ?_ (ih h)
      intro ha
      show (m.forgetLook.source.advance _).aliases = [] ∧ _
      have hnil : m.forgetLook.source.aliases = [] := ha
      unfold Machine.advance Source.advance
      rw [hnil, Source.leaveAliases]
      exact ⟨rfl, rfl⟩

theorem piece_unaliased {kind : FragmentKind} {quote : Quote} {count : ℕ}
    (h : m.piece kind quote count = .ok m') : Unaliased m m' := by
  unfold piece at h
  dsimp only at h
  split at h
  · cases h
  · next m₁ hconsume =>
    cases h
    intro ha
    obtain ⟨ha', heligible⟩ := consume_unaliased hconsume (by split <;> exact ha)
    refine ⟨ha', heligible.trans ?_⟩
    split <;> rfl

theorem delimiter_unaliased {quote : Quote} {count : ℕ} (h : m.delimiter quote count = .ok m') :
    Unaliased m m' := by
  fun_induction Machine.delimiter m quote count generalizing m' with
  | case1 m =>
    cases h
    exact fun ha => ⟨ha, rfl⟩
  | case2 m => exact consume_unaliased h
  | case3 m count hcont m₁ hpiece => cases h
  | case4 m count hcont m₁ hpiece ih => exact (piece_unaliased hpiece).trans (ih h)
  | case5 m count hcont m₁ hconsume => cases h
  | case6 m count hcont m₁ hconsume ih => exact (consume_unaliased hconsume).trans (ih h)

/-- What reads bytes outside aliases keeps the lexer quiet. -/
theorem Quiet.reads (h : Quiet m) (hreads : Reads m m') (htape : Unaliased m m') : Quiet m' := by
  obtain ⟨haliases, heligible⟩ := htape h.aliases
  obtain ⟨_, _, _, -, hlexer⟩ := hreads.lexer
  refine ⟨hreads.failure.trans h.failure, hreads.final.trans h.final, ?_,
    hreads.command.trans h.command, haliases, heligible.trans h.eligible, ?_⟩
  · exact eq_nil_of_length_eq_zero (hreads.parents.trans (by rw [h.parents]; rfl))
  · intro hactive
    rw [hlexer]
    exact h.token (hreads.active.symm.trans hactive)

/-- The lexer may be changed where it is not looked at. -/
theorem Quiet.onLexer (h : Quiet m) (f : Lexer → Lexer) (hcommand : (f m.lexer).command = m.lexer.command)
    (hactive : (f m.lexer).active = m.lexer.active)
    (heligible : (f m.lexer).aliasEligible = m.lexer.aliasEligible) : Quiet (m.onLexer f) :=
  ⟨h.failure, h.final, h.parents, hcommand.trans h.command, h.aliases, h.eligible,
    fun hi => heligible.trans (h.token (hactive.symm.trans hi))⟩

theorem Quiet.startToken (h : Quiet m) : Quiet m.startToken := by
  unfold Machine.startToken
  rw [h.aliases]
  exact ⟨h.failure, h.final, h.parents, h.command, h.aliases, rfl, fun _ => h.eligible⟩

theorem Quiet.checkpoint (h : Quiet m) (length : ℕ) (quote : Quote) :
    Quiet (m.checkpointArithmetic length quote) :=
  ⟨h.failure, h.final, h.parents, h.command, h.aliases, h.eligible, h.token⟩

theorem Quiet.delimiter (h : Quiet m) {quote : Quote} {count : ℕ}
    (hd : m.delimiter quote count = .ok m') : Quiet m' :=
  h.reads (delimiter_reads hd) (delimiter_unaliased hd)

theorem Quiet.push (h : Quiet m) {kind : FrameKind} {fragment : FragmentKind} {quote : Quote} {count : ℕ}
    (hp : m.push kind fragment quote count = .ok m') : Quiet m' := by
  rw [push_eq] at hp
  have hopened : Quiet (m.opened kind fragment quote) :=
    ⟨h.failure, h.final, h.parents, h.command, h.aliases, h.eligible, h.token⟩
  exact hopened.delimiter hp

theorem Quiet.pop (h : Quiet m) {count : ℕ} (hp : m.pop count = .ok m') : Quiet m' := by
  cases hframes : m.lexer.frames with
  | nil =>
    unfold Machine.pop at hp
    rw [hframes] at hp
    cases hp
    exact h
  | cons frame rest =>
    rw [pop_eq hframes] at hp
    split at hp
    · cases hp
    · next m₁ hdelimiter =>
      cases hp
      exact (h.delimiter hdelimiter).onLexer _ rfl rfl rfl

theorem Quiet.readies (h : Quiet m) {m₁ : Machine} (hr : Readies d m m₁) : Quiet m₁ := by
  induction hr with
  | refl => exact h
  | look wanted _ ih =>
    obtain ⟨c, hc⟩ := @peek_eq d _ wanted
    rw [hc]
    exact ⟨ih.failure, ih.final, ih.parents, ih.command, ih.aliases, ih.eligible, ih.token⟩
  | clear _ _ ih => exact ih.onLexer _ rfl rfl rfl
  | @frame m₁ f _ _ ih =>
    refine ih.onLexer _ ?_ ?_ ?_ <;>
    · unfold Lexer.onFrame
      split <;> rfl
  | start _ _ _ ih => exact ih.startToken.onLexer _ rfl rfl rfl

/-- **A round outside aliases stays there.** -/
theorem step_quiet (h : Quiet m) (hframes : m.lexer.active = false → m.lexer.frames = [])
    (hcomment : m.lexer.comment = true → m.lexer.active = false) (hstep : m.step d = .again m') :
    Quiet m' := by
  have hattempt : ∀ {r : Except Machine Machine}, Step.attempt r = .again m' → r = .ok m' := by
    intro r hr
    cases r with
    | ok m => exact congrArg Except.ok (Step.again.inj hr)
    | error m => cases hr
  rcases step_round (d := d) hframes hcomment with ⟨-, -, hround⟩ | ⟨-, hround⟩
  · generalize hs : m.step d = s at hround hstep
    cases hround with
    | more => cases hstep
    | publish => cases hstep
    | extend hr hl byte count hp kind hx ho =>
      unfold extendOperator at hstep
      split at hstep
      · cases hstep
      · next hdelimiter =>
        cases hstep
        have hset := (h.readies hr).onLexer (fun l => { l with kind }) rfl rfl rfl
        exact (hset.delimiter hdelimiter).onLexer _ rfl rfl rfl
  · generalize hs : m.step d = s at hround hstep
    cases hround with
    | more => cases hstep
    | fail => cases hstep
    | stuck => cases hstep
    | skip hr hi count _ =>
      have hok := hattempt hstep
      exact (h.readies hr).reads (consume_reads hok) (consume_unaliased hok)
    | comment hr => cases hstep; exact (h.readies hr).onLexer _ rfl rfl rfl
    | piece hr hi kind quote count hc =>
      have hok := hattempt hstep
      exact (h.readies hr).reads (piece_reads hok) (piece_unaliased hok)
    | name hr hf value quote count hp hv => exact (h.readies hr).delimiter (hattempt hstep)
    | push hr hi kind fragment quote count ho => exact (h.readies hr).push (hattempt hstep)
    | parameter hr hi rest hb quote value count hp hv =>
      unfold pushParameter at hstep
      split at hstep
      · cases hstep
      · next hpush => exact ((h.readies hr).push hpush).pop (hattempt hstep)
    | pop hr frame rest hf count hc => exact (h.readies hr).pop (hattempt hstep)
    | candidate hr hi rest hb quote second third h₂ h₃ =>
      unfold pushArithmetic at hstep
      split at hstep
      · cases hstep
      · next hpush =>
        cases hstep
        exact (((h.readies hr).checkpoint second quote).push hpush).onLexer _ rfl rfl rfl
    | expression hr hf c previous ha rest hb count hp =>
      unfold popArithmetic at hstep
      split at hstep
      · cases hstep
      · next hpop => cases hstep; exact ((h.readies hr).pop hpop).onLexer _ rfl rfl rfl
    | command hr hi rest hb quote count hp =>
      unfold dollar.commandOpening at hstep
      split at hstep <;> cases hstep
    | giveUp hr hf =>
      unfold giveUp at hstep
      split at hstep <;> cases hstep
    | publish => cases hstep
    | operator hr hi hc byte rest hb ho kind hk =>
      have hok := hattempt hstep
      have hset := (h.readies hr).startToken.onLexer
        (fun l => { l with operatorText := [byte], kind := kind l }) rfl rfl rfl
      exact hset.reads (consume_reads hok) (consume_unaliased hok)
    | newline hr hi hc rest hb =>
      unfold newlineToken at hstep
      split at hstep
      · cases hstep
      · cases hstep
    | eof => cases hstep

/-! ### Lines -/

/-- A text that is empty or ends with a newline. -/
def Lined (text : Bytes) : Prop := text = [] ∨ text.getLast? = some (byteOf '\n')

theorem Lined.suffix {w text : Bytes} (h : Lined (w ++ text)) : Lined text := by
  by_cases hnil : text = []
  · exact .inl hnil
  · rcases h with hempty | hlast
    · exact .inl (append_eq_nil_iff.mp hempty).2
    · right
      rwa [getLast?_append_of_ne_nil w hnil] at hlast

theorem Lined.append {a b : Bytes} (ha : Lined a) (hb : Lined b) : Lined (a ++ b) := by
  rcases hb with rfl | hlast
  · rwa [append_nil]
  · right
    rw [getLast?_append, hlast]
    rfl

/-- What is still to be read, on the tape and in the input; the tape ends with a line. -/
structure Tape (m : Machine) (input : Input) (text : Bytes) : Prop where
  failure : input.failure = none
  ended : input.ended = false
  split : ∃ future, input.incoming = future.map Incoming.byte ∧ m.source.unread ++ future = text
  unread : Lined m.source.unread
  text : Lined text

/-- The loop of `csh_input_read_line` on a line. -/
theorem readLoop_line (input : Input) {line : Bytes} (hline : byteOf '\n' ∉ line) (before : Bytes)
    (rest : List Incoming) (position : Position) :
    ∃ position', input.readLoop before (line.map Incoming.byte ++ .byte (byteOf '\n') :: rest) position =
      (.line (before ++ line ++ [byteOf '\n']), { input with incoming := rest, position := position' }) := by
  induction line generalizing before position with
  | nil =>
    refine ⟨position.advance (byteOf '\n'), ?_⟩
    rw [map_nil, nil_append, Input.readLoop, append_nil]
    exact if_pos rfl
  | cons byte line ih =>
    rw [mem_cons, not_or] at hline
    obtain ⟨position', hloop⟩ := ih hline.2 (before ++ [byte]) (position.advance byte)
    refine ⟨position', ?_⟩
    rw [map_cons, cons_append, Input.readLoop]
    rw [if_neg (Ne.symm hline.1), hloop, append_assoc before [byte] line]
    rfl

/-- The next line is fed. -/
theorem Tape.feed {input : Input} {text : Bytes} (h : Tape m input text) (hquiet : Quiet m)
    (hless : m.source.unread.length < text.length) :
    ∃ data m₁ input₁, input.readLine = (.line data, input₁) ∧ m.feed data false = (true, m₁) ∧
      Tape m₁ input₁ text ∧ Quiet m₁ ∧ m₁.lexer = m.lexer.feed data false ∧ m₁.source.unread ≠ [] ∧
      input₁.incoming.length < input.incoming.length := by
  obtain ⟨future, hincoming, hsplit⟩ := h.split
  have hfuture : future ≠ [] := by
    rintro rfl
    rw [append_nil] at hsplit
    rw [hsplit] at hless
    exact Nat.lt_irrefl _ hless
  have hmem : byteOf '\n' ∈ future := by
    have hlined : Lined future := by
      have htext := h.text
      rw [← hsplit] at htext
      exact htext.suffix
    exact mem_of_getLast? (hlined.resolve_left hfuture)
  obtain ⟨line, rest, rfl, hline⟩ := eq_append_cons_of_mem hmem
  obtain ⟨position, hloop⟩ := readLoop_line input hline [] (rest.map Incoming.byte) input.position
  have hread : input.readLine = (.line (line ++ [byteOf '\n']),
      { input with incoming := rest.map Incoming.byte, position }) := by
    have hcall : input.readLine = input.readLoop [] input.incoming input.position := by
      unfold Input.readLine
      rw [h.failure, h.ended]
      rfl
    rw [hcall, hincoming, map_append, map_cons]
    exact hloop
  have hfeed : m.feed (line ++ [byteOf '\n']) false =
      (true, { source := m.source.compact.append (line ++ [byteOf '\n']) false,
               lexer := m.lexer.feed (line ++ [byteOf '\n']) false,
               parents := m.parents.map (Lexer.feed (line ++ [byteOf '\n']) false) }) := by
    unfold Machine.feed
    rw [hquiet.failure, hquiet.final]
    rfl
  have hunread : (m.source.compact.append (line ++ [byteOf '\n']) false).unread =
      m.source.unread ++ (line ++ [byteOf '\n']) := rfl
  refine ⟨_, _, _, hread, hfeed, ?_, ?_, rfl, ?_, ?_⟩
  · refine ⟨h.failure, h.ended, ⟨rest, rfl, ?_⟩, ?_, h.text⟩
    · show (m.source.compact.append (line ++ [byteOf '\n']) false).unread ++ rest = text
      rw [hunread, ← hsplit]
      simp
    · show Lined (m.source.compact.append (line ++ [byteOf '\n']) false).unread
      rw [hunread]
      exact h.unread.append (.inr (by simp))
  · refine ⟨hquiet.failure, rfl, ?_, hquiet.command, ?_, hquiet.eligible, hquiet.token⟩
    · show m.parents.map _ = []
      rw [hquiet.parents]
      rfl
    · show m.source.aliases.map _ = []
      rw [hquiet.aliases]
      rfl
  · show (m.source.compact.append (line ++ [byteOf '\n']) false).unread ≠ []
    rw [hunread]
    simp
  · show (rest.map Incoming.byte).length < input.incoming.length
    rw [hincoming]
    simp only [length_map, length_append, length_cons]
    omega

/-! ### Rounds and lines -/

/-- Rounds of the scanner and `k` lines lead from one machine with its input to another. -/
inductive Fetches (d : Decoder) : ℕ → Machine × Input → Machine × Input → Prop
  | refl (x : Machine × Input) : Fetches d 0 x x
  | round {k : ℕ} {m m₁ : Machine} {input : Input} {x' : Machine × Input} (h : m.step d = .again m₁)
      (hless : m₁.source.unread.length < m.source.unread.length) (rest : Fetches d k (m₁, input) x') :
      Fetches d k (m, input) x'
  | line {k : ℕ} {m m₁ : Machine} {input input₁ : Input} {x' : Machine × Input} {data : Bytes}
      (h : m.step d = .done .more m) (hread : input.readLine = (.line data, input₁))
      (hfeed : m.feed data false = (true, m₁)) (hquiet : Quiet m₁) (rest : Fetches d k (m₁, input₁) x') :
      Fetches d (k + 1) (m, input) x'

theorem Fetches.trans {j k : ℕ} {x x' x'' : Machine × Input} (h : Fetches d j x x')
    (h' : Fetches d k x' x'') : Fetches d (j + k) x x'' := by
  induction h with
  | refl => rwa [Nat.zero_add]
  | round hstep hless _ ih => exact .round hstep hless (ih h')
  | line hstep hread hfeed hquiet _ ih =>
    rw [Nat.add_right_comm]
    exact .line hstep hread hfeed hquiet (ih h')

/-- There are no more lines than bytes in the input. -/
def Leads (d : Decoder) (x x' : Machine × Input) : Prop :=
  ∃ k, Fetches d k x x' ∧ k + x'.2.incoming.length ≤ x.2.incoming.length

theorem Leads.refl (x : Machine × Input) : Leads d x x := ⟨0, .refl x, by omega⟩

theorem Leads.trans {x x' x'' : Machine × Input} (h : Leads d x x') (h' : Leads d x' x'') :
    Leads d x x'' := by
  obtain ⟨j, hj, hjle⟩ := h
  obtain ⟨k, hk, hkle⟩ := h'
  exact ⟨j + k, hj.trans hk, by omega⟩

/-- The lexer holds a part of a word, and this text is still to be read. -/
structure Stands (x : Machine × Input) (text raw : Bytes) (fragments : List Fragment)
    (frames : List Lexical.Frame) : Prop where
  quiet : Quiet x.1
  holds : Holds x.1 raw fragments frames
  tape : Tape x.1 x.2 text
  idle : x.1.lexer.active = false → frames = []

/-- The next line is fed when the scanner asks for it. -/
theorem Stands.line {x : Machine × Input} {text raw : Bytes} {fs : List Fragment} {frames : List Lexical.Frame}
    (h : Stands x text raw fs frames) (hmore : x.1.step d = .done .more x.1)
    (hless : x.1.source.unread.length < text.length) :
    ∃ x', Leads d x x' ∧ Stands x' text raw fs frames ∧ x'.1.lexer.active = x.1.lexer.active ∧
      x'.1.source.unread ≠ [] ∧ x'.2.incoming.length < x.2.incoming.length := by
  obtain ⟨m, input⟩ := x
  obtain ⟨data, m₁, input₁, hread, hfeed, htape, hquiet, hlexer, hne, hlt⟩ := h.tape.feed h.quiet hless
  refine ⟨(m₁, input₁), ⟨1, .line hmore hread hfeed hquiet (.refl _), by dsimp only at hlt ⊢; omega⟩, ?_, ?_, hne, hlt⟩
  · refine ⟨hquiet, ?_, htape, ?_⟩
    · dsimp only
      constructor
      all_goals rw [hlexer]
      · exact h.holds.raw
      · exact h.holds.fragments
      · exact h.holds.frames
      · exact h.holds.comment
      · exact h.holds.document
      · exact h.holds.kind
    · dsimp only
      rw [hlexer]
      exact h.idle
  · dsimp only
    rw [hlexer]
    rfl

/-- The tape is not empty, or the next line is fed. -/
theorem Stands.ready {x : Machine × Input} {text raw : Bytes} {fs : List Fragment} {frames : List Lexical.Frame}
    (h : Stands x text raw fs frames) (hne : text ≠ []) :
    ∃ x', Leads d x x' ∧ Stands x' text raw fs frames ∧ x'.1.lexer.active = x.1.lexer.active ∧
      x'.1.source.unread ≠ [] := by
  by_cases hunread : x.1.source.unread = []
  · have hkind : ¬ (x.1.lexer.active = true ∧ x.1.lexer.kind ≠ .word) := fun hk => hk.2 (h.holds.kind hk.1)
    have hmore : x.1.step d = .done .more x.1 := by
      unfold Machine.step
      rw [if_neg hkind, if_pos hunread, h.quiet.final]
      rfl
    obtain ⟨x', hleads, hstands, hactive, hsome, -⟩ :=
      h.line hmore (by rw [hunread]; exact length_pos_iff.mpr hne)
    exact ⟨x', hleads, hstands, hactive, hsome⟩
  · exact ⟨x, .refl x, h, rfl, hunread⟩

/-- What stands at the front of the tape. -/
theorem Stands.front {x : Machine × Input} {byte : UInt8} {text raw : Bytes} {fs : List Fragment}
    {frames : List Lexical.Frame} (h : Stands x (byte :: text) raw fs frames) (hne : x.1.source.unread ≠ []) :
    ∃ rest, x.1.source.unread = byte :: rest := by
  obtain ⟨future, -, hsplit⟩ := h.tape.split
  cases hb : x.1.source.unread with
  | nil => exact absurd hb hne
  | cons first rest =>
    rw [hb, cons_append] at hsplit
    exact ⟨rest, by rw [(cons.inj hsplit).1]⟩

/-- A round that reads the front of the tape. -/
theorem Stands.round {x : Machine × Input} {text raw raw' : Bytes} {fs fs' : List Fragment}
    {frames frames' : List Lexical.Frame} {w rest : Bytes} (h : Stands x (w ++ text) raw fs frames)
    (hstep : x.1.step d = .again m') (hb : x.1.source.unread = w ++ rest) (hw : w ≠ [])
    (hunread : m'.source.unread = rest) (hholds : Holds m' raw' fs' frames')
    (hactive : m'.lexer.active = false → frames' = []) :
    Leads d x (m', x.2) ∧ Stands (m', x.2) text raw' fs' frames' := by
  obtain ⟨m, input⟩ := x
  have hpos : 0 < w.length := length_pos_iff.mpr hw
  have hless : m'.source.unread.length < m.source.unread.length := by
    rw [hunread, hb, length_append]
    omega
  have hquiet : Quiet m' := by
    refine step_quiet h.quiet (fun hi => ?_) (fun hc => ?_) hstep
    · exact h.holds.frames.trans (h.idle hi)
    · have hno : m.lexer.comment = false := h.holds.comment
      rw [hno] at hc
      cases hc
  obtain ⟨future, hincoming, hsplit⟩ := h.tape.split
  refine ⟨⟨0, .round hstep hless (.refl _), by dsimp only; omega⟩, hquiet, hholds, ?_, hactive⟩
  refine ⟨h.tape.failure, h.tape.ended, ⟨future, hincoming, ?_⟩, ?_, h.tape.text.suffix⟩
  · rw [hb, append_assoc] at hsplit
    rw [hunread]
    exact append_cancel_left hsplit
  · have hlined := h.tape.unread
    rw [hb] at hlined
    rw [hunread]
    exact hlined.suffix

/-! ### Quoted parts -/

variable {fs : List Fragment} {raw text : Bytes} {x : Machine × Input}

/-- A quoted region is opened. -/
theorem Stands.opened (h : Stands x (tick :: text) raw fs []) :
    ∃ x' start, Leads d x x' ∧ x'.1.lexer.active = true ∧
      Stands x' text (raw ++ [tick])
        (fs ++ [⟨.quoted, .single, none, raw.length, raw.length, start, start⟩])
        [⟨.single, .single, fs.length, 0, 0⟩] := by
  obtain ⟨x₁, hleads, hstands, -, hne⟩ := h.ready (d := d) (by simp)
  obtain ⟨rest, hb⟩ := hstands.front hne
  obtain ⟨m', start, hstep, hbeyond, hholds⟩ := step_open (d := d) hstands.holds hb
  have hfront : Stands x₁ ([tick] ++ text) raw fs [] := hstands
  obtain ⟨hround, hstands'⟩ := hfront.round hstep (show x₁.1.source.unread = [tick] ++ rest from hb) (by simp) hbeyond.unread hholds
    (fun hi => by rw [hbeyond.active] at hi; cases hi)
  exact ⟨_, start, hleads.trans hround, hbeyond.active, hstands'⟩

/-- A quoted region is closed. -/
theorem Stands.closed {fs more : List Fragment} {q : Fragment}
    {stage : ℕ} (h : Stands x (tick :: text) raw (fs ++ q :: more) [⟨.single, .single, fs.length, 0, stage⟩])
    (hi : x.1.lexer.active = true) (hne : x.1.source.unread ≠ []) :
    ∃ x' finish, Leads d x x' ∧ x'.1.lexer.active = true ∧
      Stands x' text (raw ++ [tick]) (fs ++ { q with stop := raw.length + 1, finish } :: more) [] := by
  obtain ⟨rest, hb⟩ := h.front hne
  obtain ⟨m', finish, hstep, hbeyond, hholds⟩ := step_close (d := d) h.holds hi hb
  have hfront : Stands x ([tick] ++ text) raw _ _ := h
  obtain ⟨hround, hstands⟩ := hfront.round hstep (show x.1.source.unread = [tick] ++ rest from hb) (by simp) hbeyond.unread hholds
    fun _ => rfl
  exact ⟨_, finish, hround, hbeyond.active, hstands⟩

/-- An escaped quote; no line ends behind its backslash. -/
theorem Stands.escaped (h : Stands x (byteOf '\\' :: tick :: text) raw fs []) :
    ∃ x' start finish, Leads d x x' ∧ x'.1.lexer.active = true ∧
      Stands x' text (raw ++ [byteOf '\\', tick])
        (fs ++ [⟨.escape, .none, none, raw.length, raw.length + 2, start, finish⟩]) [] := by
  obtain ⟨x₁, hleads, hstands, -, hne⟩ := h.ready (d := d) (by simp)
  obtain ⟨rest, hb⟩ := hstands.front hne
  obtain ⟨rest', hb'⟩ : ∃ rest', rest = tick :: rest' := by
    obtain ⟨future, -, hsplit⟩ := hstands.tape.split
    rw [hb, cons_append] at hsplit
    have hrest := (cons.inj hsplit).2
    cases rest with
    | nil =>
      rcases hstands.tape.unread with hnil | hlast
      · exact absurd hnil hne
      · rw [hb] at hlast
        exact absurd hlast (by decide)
    | cons first rest' =>
      rw [cons_append] at hrest
      exact ⟨rest', by rw [(cons.inj hrest).1]⟩
  rw [hb'] at hb
  obtain ⟨m', start, finish, hstep, hbeyond, hholds⟩ := step_escape (d := d) hstands.holds hb
  have hfront : Stands x₁ ([byteOf '\\', tick] ++ text) raw fs [] := hstands
  obtain ⟨hround, hstands'⟩ := hfront.round hstep (show x₁.1.source.unread = [byteOf '\\', tick] ++ rest' from hb) (by simp) hbeyond.unread hholds
    fun _ => rfl
  exact ⟨_, start, finish, hleads.trans hround, hbeyond.active, hstands'⟩

/-- The next character of a quoted region does not reach beyond its end, and a character
whose end is not on the tape does not either. -/
theorem characterLength_region (hd : d.QuoteSafe) {byte : UInt8} (hbyte : byte ≠ tick) (rest : Bytes) :
    d.characterLength (byte :: rest) false = 0 ∧ tick ∉ byte :: rest ∨
      1 ≤ d.characterLength (byte :: rest) false ∧
        d.characterLength (byte :: rest) false ≤ (byte :: rest).length ∧
        tick ∉ (byte :: rest).take (d.characterLength (byte :: rest) false) := by
  have hone : tick ∉ (byte :: rest).take 1 := by simpa using Ne.symm hbyte
  unfold Decoder.characterLength
  by_cases hlow : byte < 0x80
  · simp [hlow, Ne.symm hbyte]
  · by_cases hpartly : d.mbrlen (byte :: rest) = .incomplete
    · simp only [hlow, if_false, hpartly, decide_true, Bool.not_false, Bool.and_self, if_true]
      exact .inl ⟨trivial, hd.partly _ hpartly⟩
    · right
      simp only [hlow, if_false, hpartly, decide_false, Bool.false_and, Bool.false_eq_true]
      refine ⟨Decoder.characterBytes_pos _, Decoder.characterBytes_le (cons_ne_nil _ _), ?_⟩
      unfold Decoder.characterBytes
      split
      · next n hn =>
        split
        · exact hone
        · next hzero =>
          by_cases hwide : 1 < n
          · exact hd.complete _ n hn hwide
          · rw [show n = 1 by omega]
            exact hone
      · exact hone

/-- A round in a quoted region asks for more or takes a character. -/
theorem step_region {q stage : ℕ}
    (h : Holds m raw fs [⟨.single, .single, q, 0, stage⟩]) (hi : m.lexer.active = true)
    {byte : UInt8} {rest : Bytes} (hb : m.source.unread = byte :: rest) (hbyte : byte ≠ tick)
    (h0 : byte ≠ 0) :
    m.step d = if d.characterLength m.source.unread m.source.final = 0 then .done .more m
      else .attempt (m.piece .text .single (d.characterLength m.source.unread m.source.final)) := by
  have hframe : m.lexer.inFrame .single = true := by simp [Lexer.inFrame, h.frames]
  have hquote : m.lexer.frameQuote = .single := by simp [Lexer.frameQuote, h.frames]
  rw [step_word h hb h0 (by simp [Lexer.inFrame, h.frames])]
  generalize d.characterLength m.source.unread m.source.final = width
  split
  · rfl
  · next hzero =>
    by_cases hwide : 1 < width
    · rw [if_pos hwide]
      simp [wideStep, startWord, hi, Lexer.inFrame, h.frames, hquote]
    · rw [if_neg hwide, byteStep, if_pos hframe, if_neg hbyte, hquote, show width = 1 by omega]

/-- **The text of a quoted region is read**, with as many lines as it goes over. -/
theorem Stands.inside (hd : d.QuoteSafe) {x : Machine × Input} {raw text w rest : Bytes}
    {fs : List Fragment} {q : Fragment} {o : ℕ} {start finish : Position} {stage : ℕ}
    (h : Stands x (w ++ tick :: rest) raw (fs ++ regionFragments q text
        ⟨.text, .single, some fs.length, o, o + text.length, start, finish⟩)
      [⟨.single, .single, fs.length, 0, stage⟩])
    (hi : x.1.lexer.active = true) (ho : o + text.length = raw.length) (hq : q.kind ≠ .text)
    (hw : tick ∉ w) (h0 : NulFree w) :
    ∃ x' start finish, Leads d x x' ∧ x'.1.lexer.active = true ∧ x'.1.source.unread ≠ [] ∧
      Stands x' (tick :: rest) (raw ++ w) (fs ++ regionFragments q (text ++ w)
          ⟨.text, .single, some fs.length, o, o + (text ++ w).length, start, finish⟩)
        [⟨.single, .single, fs.length, 0, stage⟩] := by
  -- every round takes a byte of the region or a line of the input
  induction hn : w.length + x.2.incoming.length using Nat.strong_induction_on
    generalizing x raw text w start finish with
  | h n ih =>
    obtain ⟨x₁, hleads₁, hstands₁, hactive₁, hne₁⟩ := h.ready (d := d) (by simp)
    have hi₁ : x₁.1.lexer.active = true := hactive₁.trans hi
    have hless₁ : x₁.2.incoming.length ≤ x.2.incoming.length := by
      obtain ⟨k, -, hk⟩ := hleads₁
      omega
    cases w with
    | nil =>
      refine ⟨x₁, start, finish, hleads₁, hi₁, hne₁, ?_⟩
      rw [append_nil, append_nil]
      exact hstands₁
    | cons byte w =>
      obtain ⟨u, hb⟩ := hstands₁.front hne₁
      have hbyte : byte ≠ tick := fun he => hw (by simp [he])
      have hzero : byte ≠ 0 := fun he => h0 (by simp [he])
      obtain ⟨future, hincoming, hsplit⟩ := hstands₁.tape.split
      have hstep := step_region (d := d) hstands₁.holds hi₁ hb hbyte hzero
      have hfinal := hstands₁.quiet.final
      rw [hfinal, hb] at hstep
      rcases characterLength_region hd hbyte u with ⟨hwidth, hnone⟩ | ⟨hpos, hle, hinside⟩
      · -- the character is not complete on the tape
        rw [if_pos hwidth] at hstep
        have hless : x₁.1.source.unread.length < ((byte :: w) ++ tick :: rest).length := by
          have hfuture : future ≠ [] := by
            rintro rfl
            rw [append_nil, hb] at hsplit
            rw [hsplit] at hnone
            exact hnone (by simp)
          have hlen := congrArg length hsplit
          rw [length_append] at hlen
          have := length_pos_iff.mpr hfuture
          omega
        obtain ⟨x₂, hleads₂, hstands₂, hactive₂, -, hlt⟩ := hstands₁.line hstep hless
        obtain ⟨x', start', finish', hleads, hactive, hsome, hstands⟩ :=
          ih ((byte :: w).length + x₂.2.incoming.length) (by omega) hstands₂ (hactive₂.trans hi₁) ho hw h0 rfl
        exact ⟨x', start', finish', (hleads₁.trans hleads₂).trans hleads, hactive, hsome, hstands⟩
      · -- the character is one piece of text
        generalize hwidth : d.characterLength (byte :: u) false = width at hstep hpos hle hinside
        rw [if_neg (by omega)] at hstep
        -- it lies before the end of the region
        have hshort : width ≤ (byte :: w).length := by
          by_contra hlong
          apply hinside
          have htake : (byte :: u).take width = (((byte :: w) ++ tick :: rest).take width) := by
            rw [← hsplit, hb, take_append_of_le_length hle]
          rw [htake, take_append]
          obtain ⟨k, hk⟩ : ∃ k, width - (byte :: w).length = k + 1 :=
            ⟨width - (byte :: w).length - 1, by omega⟩
          rw [hk, take_succ_cons]
          simp
        have htake : (byte :: u).take width = (byte :: w).take width := by
          have hsame := congrArg (take width) hsplit
          rwa [hb, take_append_of_le_length hle, take_append_of_le_length hshort] at hsame
        have hread : x₁.1.source.unread = (byte :: w).take width ++ (byte :: u).drop width := by
          rw [hb, ← htake, take_append_drop]
        have hlen : ((byte :: w).take width).length = width := by
          rw [length_take]
          omega
        have hsome : (byte :: w).take width ≠ [] := by
          apply length_pos_iff.mp
          omega
        have hnul : NulFree ((byte :: w).take width) := fun hmem => h0 (mem_of_mem_take hmem)
        obtain ⟨m₂, start₂, finish₂, hpiece, hbeyond, hholds⟩ :=
          piece_region hstands₁.holds hi₁ ho hq hread hsome hnul
        rw [hlen] at hpiece
        have hnext : x₁.1.step d = .again m₂ := by
          rw [hstep, hpiece]
          rfl
        have hcut : (byte :: w) ++ tick :: rest =
            (byte :: w).take width ++ ((byte :: w).drop width ++ tick :: rest) := by
          rw [← append_assoc, take_append_drop]
        rw [hcut] at hstands₁
        obtain ⟨hround, hstands₂⟩ := hstands₁.round hnext hread hsome hbeyond.unread hholds
          fun hno => by rw [hbeyond.active] at hno; cases hno
        have ho₂ : o + (text ++ (byte :: w).take width).length = (raw ++ (byte :: w).take width).length := by
          simp only [length_append]
          omega
        have hshorter : ((byte :: w).drop width).length < (byte :: w).length := by
          rw [length_drop]
          simp only [length_cons]
          omega
        obtain ⟨x', start', finish', hleads, hactive, hrest, hstands⟩ :=
          ih (((byte :: w).drop width).length + x₁.2.incoming.length) (by omega) hstands₂ hbeyond.active ho₂
            (fun hmem => hw (mem_of_mem_drop hmem)) (fun hmem => h0 (mem_of_mem_drop hmem)) rfl
        refine ⟨x', start', finish', (hleads₁.trans hround).trans hleads, hactive, hrest, ?_⟩
        rw [append_assoc, take_append_drop, append_assoc, take_append_drop] at hstands
        exact hstands

/-- **The parts of a word are read over line ends.** -/
theorem Stands.parts (hd : d.QuoteSafe) {parts : List Part} (hparts : ∀ part ∈ parts, part.Fine)
    {rest raw : Bytes}
    (h : Stands x (spelling parts ++ rest) raw fs []) (hi : x.1.lexer.active = true ∨ parts ≠ []) :
    ∃ x' gs, Leads d x x' ∧ x'.1.lexer.active = true ∧
      Stands x' rest (raw ++ spelling parts) (fs ++ gs) [] ∧ Lays parts raw.length fs.length gs := by
  induction parts generalizing x raw fs with
  | nil =>
    have hactive := hi.resolve_right fun hne => hne rfl
    refine ⟨x, [], .refl x, hactive, ?_, .nil⟩
    rw [spelling_nil, append_nil, append_nil]
    exact h
  | cons part parts ih =>
    have hfine := hparts part mem_cons_self
    have hrest : ∀ p ∈ parts, p.Fine := fun p hp => hparts p (mem_cons_of_mem part hp)
    rw [spelling_cons, append_assoc] at h
    cases part with
    | quote =>
      obtain ⟨x₁, start, finish, hleads₁, hactive₁, hstands₁⟩ := Stands.escaped (d := d) h
      obtain ⟨x', gs, hleads, hactive, hstands, hlays⟩ := ih hrest hstands₁ (.inl hactive₁)
      rw [length_append, length_append] at hlays
      refine ⟨x', _ :: gs, hleads₁.trans hleads, hactive, ?_, .quote start finish hlays⟩
      simpa [Part.spelling] using hstands
    | single text =>
      obtain ⟨htick, hnul⟩ := hfine
      have hfront : Stands x (tick :: (text ++ tick :: (spelling parts ++ rest))) raw fs [] := by
        simpa [Part.spelling] using h
      -- the opening quote, the text, the closing quote
      obtain ⟨x₁, start, hleads₁, hactive₁, hstands₁⟩ := hfront.opened (d := d)
      have hempty : regionFragments ⟨.quoted, .single, none, raw.length, raw.length, start, start⟩ []
          ⟨.text, .single, some fs.length, raw.length + 1, raw.length + 1 + 0, start, start⟩ =
          [⟨.quoted, .single, none, raw.length, raw.length, start, start⟩] := if_pos rfl
      rw [← hempty] at hstands₁
      obtain ⟨x₂, start₂, finish₂, hleads₂, hactive₂, hne₂, hstands₂⟩ :=
        @Stands.inside d hd x₁ _ [] text _ fs _ _ start start 0 hstands₁ hactive₁ (by simp) (by simp) htick hnul
      rw [nil_append] at hstands₂
      have hregion : ∃ more, regionFragments
          ⟨.quoted, .single, none, raw.length, raw.length, start, start⟩ text
          ⟨.text, .single, some fs.length, raw.length + 1, raw.length + 1 + text.length, start₂, finish₂⟩
            = ⟨.quoted, .single, none, raw.length, raw.length, start, start⟩ :: more ∧
          (text = [] ∧ more = [] ∨ text ≠ [] ∧ more = [⟨.text, .single, some fs.length, raw.length + 1,
            raw.length + 1 + text.length, start₂, finish₂⟩]) := by
        unfold regionFragments
        split
        · next he => exact ⟨[], rfl, .inl ⟨he, rfl⟩⟩
        · next he => exact ⟨_, rfl, .inr ⟨he, rfl⟩⟩
      obtain ⟨more, hfragments, hmore⟩ := hregion
      rw [hfragments] at hstands₂
      obtain ⟨x₃, finish₃, hleads₃, hactive₃, hstands₃⟩ := hstands₂.closed (d := d) hactive₂ hne₂
      obtain ⟨x', gs, hleads, hactive, hstands, hlays⟩ := ih hrest hstands₃ (.inl hactive₃)
      have hlen : (raw ++ [tick] ++ text).length + 1 = raw.length + text.length + 2 := by
        simp only [length_append, length_singleton]
        omega
      rw [hlen] at hstands
      have hlays' : Lays parts (raw.length + text.length + 2) (fs.length + more.length + 1) gs := by
        simpa [Nat.add_assoc, Nat.add_comm, Nat.add_left_comm] using hlays
      refine ⟨x', ⟨.quoted, .single, none, raw.length, raw.length + text.length + 2, start,
        finish₃⟩ :: more ++ gs, ?_, hactive, ?_, ?_⟩
      · exact ((hleads₁.trans hleads₂).trans hleads₃).trans hleads
      · simpa [Part.spelling] using hstands
      · rcases hmore with ⟨rfl, rfl⟩ | ⟨hsome, rfl⟩
        · exact .empty start finish₃ hlays'
        · exact .single hsome start finish₃ start₂ finish₂ hlays'

/-- The unquoted beginning of a word. -/
theorem Stands.lead {x : Machine × Input} {text w rest : Bytes} {start finish : Position}
    (h : Stands x (w ++ rest) text (leadFragments text start finish) [])
    (hi : x.1.lexer.active = true ∨ w ≠ []) (hw : ∀ byte ∈ w, ordinary byte = true) :
    ∃ x' start finish, Leads d x x' ∧ x'.1.lexer.active = true ∧
      Stands x' rest (text ++ w) (leadFragments (text ++ w) start finish) [] := by
  induction w generalizing x text start finish with
  | nil =>
    have hactive := hi.resolve_right fun hne => hne rfl
    exact ⟨x, start, finish, .refl x, hactive, by simpa using h⟩
  | cons byte w ih =>
    have hbyte := hw byte mem_cons_self
    obtain ⟨x₁, hleads₁, hstands₁, -, hne₁⟩ := Stands.ready (d := d) h (by simp)
    obtain ⟨u, hb⟩ := @Stands.front _ byte (w ++ rest) _ _ _ hstands₁ hne₁
    -- the byte alone, as the first piece or behind the text
    obtain ⟨m', start', finish', hstep, hbeyond, hholds⟩ :=
      step_ordinary_again (d := d) hstands₁.holds hb hbyte
    have hfront : Stands x₁ ([byte] ++ (w ++ rest)) text (leadFragments text start finish) [] := hstands₁
    obtain ⟨hround, hstands₂⟩ := hfront.round hstep (show x₁.1.source.unread = [byte] ++ u from hb) (by simp) hbeyond.unread hholds
      fun _ => rfl
    obtain ⟨x', start'', finish'', hleads, hactive, hstands⟩ :=
      ih hstands₂ (.inl hbeyond.active) fun b hb => hw b (mem_cons_of_mem byte hb)
    exact ⟨x', start'', finish'', (hleads₁.trans hround).trans hleads, hactive, by simpa using hstands⟩

/-! ### Between words -/

/-- The lexer is between two tokens, and this text is still to be read. -/
structure Between (x : Machine × Input) (text : Bytes) : Prop where
  quiet : Quiet x.1
  active : x.1.lexer.active = false
  holds : Holds x.1 [] [] []
  tape : Tape x.1 x.2 text

theorem Between.stands (h : Between x text) :
    Stands x text [] [] [] := ⟨h.quiet, h.holds, h.tape, fun _ => rfl⟩

/-- Blanks between two words. -/
theorem Between.blanks {w text : Bytes} (h : Between x (w ++ text))
    (hw : ∀ byte ∈ w, byte = byteOf ' ' ∨ byte = byteOf '\t') :
    ∃ x', Leads d x x' ∧ Between x' text := by
  induction w generalizing x with
  | nil => exact ⟨x, .refl x, h⟩
  | cons byte w ih =>
    have hblank := hw byte mem_cons_self
    obtain ⟨x₁, hleads₁, hstands₁, hactive₁, hne₁⟩ := h.stands.ready (d := d) (by simp)
    have hidle : x₁.1.lexer.active = false := hactive₁.trans h.active
    obtain ⟨u, hb⟩ := @Stands.front _ byte (w ++ text) _ _ _ hstands₁ hne₁
    have hall : ∀ c : UInt8, c = byteOf ' ' ∨ c = byteOf '\t' →
        c ≠ 0 ∧ c < 0x80 ∧ c ≠ byteOf '\\' := by
      rintro c (rfl | rfl) <;> decide
    obtain ⟨hzero, hlow, hback⟩ := hall byte hblank
    have hread : x₁.1.source.unread = [byte] ++ u := hb
    obtain ⟨m', hconsume, hunread⟩ := consume_total hread (by simpa using Ne.symm hzero)
    obtain ⟨raw, position, hlexer⟩ := consume_lexer _ hconsume
    obtain ⟨_, -, htook⟩ := consume_took hconsume
    have hraw : m'.lexer.raw = [] := by
      rw [htook.raw, if_neg (by simp [hidle])]
      exact hstands₁.holds.raw
    have hf := fun kind => inFrame_nil hstands₁.holds.frames kind
    have hstep : x₁.1.step d = .again m' := by
      rw [step_root hstands₁.holds hb hzero hlow hback]
      unfold Machine.plainByte
      simp only [hf, Bool.or_self, Bool.false_eq_true, if_false]
      rw [if_pos ⟨hstands₁.holds.document, hstands₁.holds.frames, hblank.imp_right .inl⟩, separatorStep,
        if_neg (by simp [hidle]), if_pos hblank]
      exact congrArg Step.attempt hconsume
    have hholds : Holds m' [] [] [] := by
      refine ⟨hraw, ?_, ?_, ?_, ?_, ?_⟩
      all_goals rw [hlexer]
      · exact hstands₁.holds.fragments
      · exact hstands₁.holds.frames
      · exact hstands₁.holds.comment
      · exact hstands₁.holds.document
      · exact hstands₁.holds.kind
    have hfront : Stands x₁ ([byte] ++ (w ++ text)) [] [] [] := hstands₁
    obtain ⟨hround, hstands₂⟩ := hfront.round hstep hread (by simp) hunread hholds fun _ => rfl
    have hidle' : m'.lexer.active = false := by
      rw [hlexer]
      exact hidle
    obtain ⟨x', hleads, hbetween⟩ :=
      ih ⟨hstands₂.quiet, hidle', hholds, hstands₂.tape⟩ fun b hb => hw b (mem_cons_of_mem byte hb)
    exact ⟨x', (hleads₁.trans hround).trans hleads, hbetween⟩

/-- The scanner comes to a token, with this text left behind it. -/
def Comes (d : Decoder) (x : Machine × Input) (t : Token) (text : Bytes) : Prop :=
  ∃ x' m'', Leads d x x' ∧ x'.1.step d = .done (.token t) m'' ∧ Between (m'', x'.2) text

/-- A published token leaves the lexer between two tokens. -/
theorem Stands.published (h : Stands x text raw fs []) (hpublish : x.1.step d = x.1.publish) :
    ∃ m'', x.1.step d = .done (.token x.1.lexer.token) m'' ∧ Between (m'', x.2) text := by
  refine ⟨_, hpublish, ?_, rfl, ?_, ?_⟩
  · exact ⟨h.quiet.failure, h.quiet.final, h.quiet.parents, h.quiet.command, h.quiet.aliases,
      h.quiet.eligible, fun hi => by cases hi⟩
  · exact ⟨rfl, rfl, h.holds.frames, h.holds.comment, h.holds.document, fun hi => by cases hi⟩
  · exact ⟨h.tape.failure, h.tape.ended, h.tape.split, h.tape.unread, h.tape.text⟩

/-- The bytes that end a word. -/
def breaks : Bytes := ascii " \t\n|&;()<>"

/-- **A word comes as one token**, over as many lines as its quoted parts take. -/
theorem Between.word (hd : d.QuoteSafe) {lead rest : Bytes} {parts : List Part}
    {sep : UInt8} (h : Between x (lead ++ spelling parts ++ sep :: rest))
    (hlead : ∀ byte ∈ lead, ordinary byte = true) (hparts : ∀ part ∈ parts, part.Fine)
    (hne : lead ≠ [] ∨ parts ≠ []) (hsep : sep ∈ breaks) :
    ∃ t, Comes d x t (sep :: rest) ∧ QuotedWord t lead parts ∧ t.aliasEligible = false := by
  -- the unquoted beginning, if there is one
  have hfirst : ∃ x₁ start finish, Leads d x x₁ ∧ (x₁.1.lexer.active = true ∨ parts ≠ []) ∧
      Stands x₁ (spelling parts ++ sep :: rest) lead (leadFragments lead start finish) [] := by
    by_cases hnil : lead = []
    · subst hnil
      exact ⟨x, {}, {}, .refl x, .inr (hne.resolve_left fun hno => hno rfl), h.stands⟩
    · have hstands := h.stands
      rw [append_assoc] at hstands
      obtain ⟨x₁, start, finish, hleads, hactive, hstands₁⟩ :=
        @Stands.lead d x [] _ _ {} {} hstands (.inr hnil) hlead
      exact ⟨x₁, start, finish, hleads, .inl hactive, hstands₁⟩
  obtain ⟨x₁, start, finish, hleads₁, hactive₁, hstands₁⟩ := hfirst
  obtain ⟨x₂, gs, hleads₂, hactive₂, hstands₂, hlays⟩ := hstands₁.parts hd hparts hactive₁
  -- the byte behind the word is looked at
  obtain ⟨x₃, hleads₃, hstands₃, hactive₃, hsome⟩ := hstands₂.ready (d := d) (by simp)
  have hi : x₃.1.lexer.active = true := hactive₃.trans hactive₂
  obtain ⟨u, hb⟩ := hstands₃.front hsome
  have hends : Ends x₃.1.source.final x₃.1.source.unread := by
    rw [hb]
    exact hsep
  obtain ⟨m'', hstep, hbetween⟩ := hstands₃.published (step_publish hstands₃.holds hi hends)
  refine ⟨x₃.1.lexer.token, ⟨x₃, m'', (hleads₁.trans hleads₂).trans hleads₃, hstep, hbetween⟩, ?_,
    hstands₃.quiet.token hi⟩
  exact ⟨hstands₃.holds.kind hi, hstands₃.holds.raw, hlead, hparts, hne, start, finish, gs,
    hstands₃.holds.fragments, hlays⟩

theorem startToken_keeps (m : Machine) : m.startToken.lexer.frames = m.lexer.frames ∧
    m.startToken.lexer.comment = m.lexer.comment ∧ m.startToken.lexer.document = m.lexer.document := by
  unfold Machine.startToken
  cases m.source.aliases <;> exact ⟨rfl, rfl, rfl⟩

/-- A newline comes as a token. -/
theorem Between.newline {x : Machine × Input} {rest : Bytes} (h : Between x (byteOf '\n' :: rest)) :
    ∃ t, Comes d x t rest ∧ t.kind = .newline := by
  obtain ⟨x₁, hleads₁, hstands₁, hactive₁, hsome⟩ := h.stands.ready (d := d) (by simp)
  have hidle : x₁.1.lexer.active = false := hactive₁.trans h.active
  obtain ⟨u, hb⟩ := hstands₁.front hsome
  -- the token is started and takes the byte
  have hstart := hstands₁.quiet.startToken.onLexer (fun l => { l with kind := .newline }) rfl rfl rfl
  have hread : (x₁.1.startToken.onLexer fun l => { l with kind := .newline }).source.unread =
      [byteOf '\n'] ++ u := hb
  obtain ⟨m₂, hconsume, hunread⟩ := consume_total hread (by decide)
  obtain ⟨raw, position, hlexer⟩ := consume_lexer _ hconsume
  have hquiet := hstart.reads (consume_reads hconsume) (consume_unaliased hconsume)
  have hf := fun kind => inFrame_nil hstands₁.holds.frames kind
  have hstep : x₁.1.step d = m₂.publish := by
    rw [step_root hstands₁.holds hb (by decide) (by decide) (by decide)]
    unfold Machine.plainByte
    simp only [hf, Bool.or_self, Bool.false_eq_true, if_false]
    rw [if_pos ⟨hstands₁.holds.document, hstands₁.holds.frames, by simp⟩, separatorStep,
      if_neg (by simp [hidle]), if_neg (by decide), if_pos rfl]
    rw [show ([byteOf '\n'] : Bytes).length = 1 from rfl] at hconsume
    rw [hconsume]
  obtain ⟨future, hincoming, hsplit⟩ := hstands₁.tape.split
  rw [hb, cons_append] at hsplit
  have htape : Tape m₂ x₁.2 rest := by
    refine ⟨hstands₁.tape.failure, hstands₁.tape.ended, ⟨future, hincoming, ?_⟩, ?_, ?_⟩
    · rw [hunread]
      exact (cons.inj hsplit).2
    · have hlined := hstands₁.tape.unread
      rw [hb] at hlined
      rw [hunread]
      exact Lined.suffix (w := [byteOf '\n']) hlined
    · exact Lined.suffix (w := [byteOf '\n']) hstands₁.tape.text
  obtain ⟨hframes, hcomment, hdocument⟩ := startToken_keeps x₁.1
  have hnewline : m₂.lexer.kind = .newline := by rw [hlexer]; rfl
  refine ⟨m₂.lexer.token, ⟨x₁, _, hleads₁, hstep, ?_⟩, hnewline⟩
  refine ⟨⟨hquiet.failure, hquiet.final, hquiet.parents, hquiet.command, hquiet.aliases,
    hquiet.eligible, fun hi => by cases hi⟩, rfl, ?_, ?_⟩
  · refine ⟨rfl, rfl, ?_, ?_, ?_, fun hi => by cases hi⟩
    · show m₂.lexer.frames = []
      rw [hlexer]
      exact hframes.trans hstands₁.holds.frames
    · show m₂.lexer.comment = false
      rw [hlexer]
      exact hcomment.trans hstands₁.holds.comment
    · show m₂.lexer.document = false
      rw [hlexer]
      exact hdocument.trans hstands₁.holds.document
  · exact ⟨htape.failure, htape.ended, htape.split, htape.unread, htape.text⟩

/-! ### The lookahead -/

/-- A call of the scanner, from rounds that each read a byte. -/
theorem lexerNext_reaches {m₀ m₁ : Machine} {j : ℕ} {r : LexResult} (h : Quiet m₀)
    (hreach : Reaches d j m₀ m) (hj : j + m.source.unread.length ≤ m₀.source.unread.length)
    (hdone : m.step d = .done r m₁) (hr : r ≠ .error) : m₀.lexerNext d 0 = (r, m₁) := by
  obtain ⟨n, hn⟩ : ∃ n, m₀.rounds = j + (n + 1) := by
    refine ⟨m₀.rounds - j - 1, ?_⟩
    unfold rounds
    omega
  have hscan : scanLoop d m₀.rounds m₀ = some (r, m₁) := by
    rw [hn, hreach.scanLoop, Machine.scanLoop, hdone]
  have hdepth : m₀.depth = 0 := congrArg length h.parents
  have hnext : m₀.nextToken d 0 = (r, m₁) := by
    unfold nextToken
    rw [h.failure, hdepth, h.command, hscan]
    rfl
  unfold lexerNext
  rw [h.failure, hnext]
  cases r with
  | error => exact absurd rfl hr
  | _ => rfl

/-- **The lookahead is what the scanner comes to**, line after line. -/
theorem peekLoop_fetches {list : Option (Closing → Bool → Position → P Ast)} {t : Token} {m'' : Machine}
    {k n j : ℕ} {x x' : Machine × Input} (h : Fetches d k x x') (hdone : x'.1.step d = .done (.token t) m'')
    {s : Run} (hquiet : Quiet s.parser.machine) (hreach : Reaches d j s.parser.machine x.1)
    (hj : j + x.1.source.unread.length ≤ s.parser.machine.source.unread.length)
    (hinput : s.parser.input = x.2) (hdepth : s.parents = []) (hfinal : s.parser.final = false)
    (hn : k < n) :
    ∃ events, (peekLoop d list n).run s = (.ok (some (.mk t (s.frame.pending.map (Run.settle t)))),
      { s with
        parser := { s.parser with machine := m'', input := x'.2 }
        frame := { s.frame with look := some (.mk t (s.frame.pending.map (Run.settle t))), pending := [] }
        events }) := by
  obtain ⟨n, rfl⟩ : ∃ n', n = n' + 1 := ⟨n - 1, by omega⟩
  have hzero : s.depth = 0 := congrArg length hdepth
  induction h generalizing s j n with
  | refl x =>
    have hnext := lexerNext_reaches hquiet hreach hj hdone (by simp)
    have hupdate : (Program.update (ε := Stop) (Run.next d)).run s =
        (.ok (.token t), (s.onMachine m'').publish t) := by
      rw [run_update]
      unfold Run.next
      rw [hzero, hnext]
    refine ⟨s.events ++ [.token s.depth (.mk t (s.frame.pending.map (Run.settle t)))], ?_⟩
    rw [peekLoop, run_bind_ok hupdate]
    dsimp only
    rw [run_gets, ← hinput]
    rfl
  | round hstep hless _ ih =>
    refine ih hdone hquiet (hreach.trans (.step hstep (.refl _))) ?_ hinput hdepth hfinal n hn hzero
    dsimp only at hj ⊢
    omega
  | @line k m m₁ input input₁ x' data hstep hread hfeed hquiet₁ _ ih =>
    have hnext := lexerNext_reaches hquiet hreach hj hstep (by simp)
    obtain ⟨n, rfl⟩ : ∃ n', n = n' + 1 := ⟨n - 1, by omega⟩
    let s₁ : Run :=
      { s with parser := { s.parser with machine := m₁, input := input₁, final := false },
               events := s.events ++ [.read (.line data)] }
    have hupdate : (Program.update (ε := Stop) (Run.next d)).run s = (.ok .more, s.onMachine m) := by
      rw [run_update]
      unfold Run.next
      rw [hzero, hnext]
    have hline : (s.onMachine m).feedLine = (none, s₁) := by
      unfold Run.feedLine Run.onMachine
      dsimp only
      rw [hinput, hread]
      dsimp only
      unfold Run.note
      rw [hfeed]
    have hadopt : (orAdopt Run.feedLine).run (s.onMachine m) = (.ok (), s₁) := by
      unfold orAdopt
      rw [run_bind, run_update, hline]
      rfl
    have hloop : (peekLoop d list (n + 1 + 1)).run s = (peekLoop d list (n + 1)).run s₁ := by
      rw [peekLoop, run_bind_ok hupdate]
      dsimp only
      rw [run_bind_ok hadopt]
    obtain ⟨events, hrun⟩ := ih (s := s₁) (j := 0) hdone hquiet₁ (.refl _) (by dsimp only [s₁]; omega) rfl hdepth rfl
      n (by omega) hzero
    refine ⟨events, ?_⟩
    rw [hloop, hrun]
    dsimp only [s₁]
    rw [← hfinal]

end Parse
end CShell
