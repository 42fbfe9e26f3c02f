import CShell.Parse.Document
import CShell.Quoting.Escaping
import CShell.Quoting.Reinput

/-!
# Here-documents and their escapes

In a here-document whose delimiter is not quoted three bytes are active: the dollar
sign, the backquote and the backslash.  With a backslash before each of them a body is
read as text and escapes only, all at the top level of its one word, and expands to
itself, whatever else is in it.

## Main definitions

* `documentActive` — the bytes that are active in a here-document.

## Main results

* `lexerNext_document` — an escaped body is one token of morsels.
* `expandWord_morsels` — morsels expand to one field of what they stand for.
* `redirectDocument_escaped` — **an escaped body is delivered as it was.**

## References

`src/parser.c` (`csh_parser_document`), `src/prepare.c` (`csh_command_redirect`).
-/

namespace CShell
namespace Quoting

open Lexical Machine Expand

/-- The bytes that are active in a here-document. -/
def documentActive (byte : UInt8) : Bool := (ascii "$\x60\\").contains byte

/-! ### Reading -/

section Reading

variable {d : Decoder} {m : Machine}

theorem documentActive_iff {byte : UInt8} :
    documentActive byte = true ↔ byte = byteOf '$' ∨ byte = byteOf '\x60' ∨ byte = byteOf '\\' := by
  simp [documentActive, ascii, byteOf]

/-- At the top level of a document every byte that is not active is text. -/
theorem region_document (d : Decoder) : Region d true [] .double documentActive where
  ascii byte h := by
    rcases documentActive_iff.mp h with rfl | rfl | rfl <;> decide
  text := by
    intro m raw fs byte rest h hi hb h0 hp hwidth
    have hf := fun kind => inFrame_nil h.frames kind
    have hquote : m.lexer.frameQuote = .double := by
      simp [Lexer.frameQuote, h.frames, h.document]
    obtain ⟨hstart, -⟩ := h.startWord
    have hquote' : m.startWord.lexer.frameQuote = .double := by
      simp [Lexer.frameQuote, hstart.frames, hstart.document]
    have hf' := fun kind => inFrame_nil hstart.frames kind
    rw [step_pending h hb h0 (hf _), if_neg (Nat.ne_of_gt hwidth)]
    split
    · -- a character of several bytes
      simp [wideStep, hf', hquote']
    · next hone =>
      have hwidth' : d.characterLength m.source.unread m.source.final = 1 := by omega
      rw [hwidth']
      have hne : byte ≠ byteOf '$' ∧ byte ≠ byteOf '\x60' ∧ byte ≠ byteOf '\\' := by
        simpa [documentActive_iff] using (Bool.eq_false_iff.mp hp)
      unfold byteStep
      simp [hf, arithmeticByte, escapeByte, hne.2.2]
      unfold plainByte wordByte
      simp [hf, hf', h.document, hstart.document, hstart.frames, Lexer.contextQuote, hquote', hne.1,
        hne.2.1]
  escape := by
    intro m raw fs byte rest h hi hb hp
    have hf := fun kind => inFrame_nil h.frames kind
    have hquote : m.lexer.contextQuote = .double := by
      simp [Lexer.contextQuote, hf, Lexer.frameQuote, h.frames, h.document]
    have hlow : byte < 0x80 := by
      rcases documentActive_iff.mp hp with rfl | rfl | rfl <;> decide
    have hnl : byte ≠ byteOf '\n' := by
      rcases documentActive_iff.mp hp with rfl | rfl | rfl <;> decide
    have hescapes : escapes m.lexer .double (some byte) = true := by
      have hmem : strchr (ascii "$\x60\\") byte = true := by
        rw [strchr, Bool.or_eq_true]
        exact Or.inr hp
      simp [escapes, hf, hmem]
    rw [step_pending h hb (by decide) (hf _), hb, characterLength_ascii (by decide)]
    have hwidth : d.characterLength (byte :: rest) m.source.final = 1 := characterLength_ascii hlow _ _
    simp [byteStep, hf, arithmeticByte, escapeByte, hquote, hb, hwidth, hescapes, hnl]

/-- The lexer of a document that was just given its text. -/
def documentMachine (text : Bytes) : Machine :=
  { source := { name := ascii "here-document", position := { line := 1, column := 1 },
                data := text, final := true },
    lexer := { document := true }, parents := [] }

theorem feed_document (text : Bytes) :
    (Machine.create (ascii "here-document") { line := 1, column := 1 } true).feed text true =
      (true, documentMachine text) := by
  simp [Machine.create, Machine.feed, documentMachine, Source.compact, Source.append, Source.unread,
    Lexer.feed]

/-- **An escaped body is one token of morsels.** -/
theorem lexerNext_document (hd : d.AsciiSafe) {body : Bytes} (hne : body ≠ []) (h0 : NulFree body) :
    ∃ t m' fs, (documentMachine (escapeBytes documentActive body)).lexerNext d 0 = (.token t, m') ∧
      t.kind = .word ∧ t.raw = escapeBytes documentActive body ∧ t.fragments = fs ∧
      Morsels none .double 0 t.raw fs body := by
  have hpending : Pending (documentMachine (escapeBytes documentActive body)) true ([] ++ []) ([] ++ []) [] :=
    ⟨rfl, rfl, rfl, rfl, rfl, fun _ => rfl⟩
  have hunread : (documentMachine (escapeBytes documentActive body)).source.unread =
      escapeBytes documentActive body ++ [] := by
    simp [documentMachine, Source.unread]
  obtain ⟨k, m₁, fs, hk, hreach, hbeyond, hpending', hmorsels⟩ :=
    (region_document d).reaches hd hpending .nil (by simp) h0 (Or.inr ⟨rfl, hne⟩) hunread (by simp)
      (Or.inl rfl)
  simp only [List.nil_append] at hpending' hmorsels
  -- behind the last byte the word is published
  have hpublish : m₁.step d = m₁.publish := by
    have hkind : ¬ (m₁.lexer.active = true ∧ m₁.lexer.kind ≠ .word) :=
      fun hk => hk.2 (hpending'.kind hk.1)
    have hfinal : m₁.source.final = true := hbeyond.final
    unfold step eof
    rw [if_neg hkind, if_pos hbeyond.unread, if_pos hfinal, hpending'.frames]
    exact if_pos hbeyond.active
  obtain ⟨n, hn⟩ : ∃ n, (documentMachine (escapeBytes documentActive body)).rounds = k + (n + 1) := by
    refine ⟨(documentMachine (escapeBytes documentActive body)).rounds - k - 1, ?_⟩
    unfold rounds
    rw [hunread, List.length_append]
    omega
  have hscan : ∃ m', scanLoop d (documentMachine (escapeBytes documentActive body)).rounds
      (documentMachine (escapeBytes documentActive body)) = some (.token m₁.lexer.token, m') := by
    rw [hn, hreach.scanLoop, Machine.scanLoop, hpublish]
    exact ⟨_, rfl⟩
  obtain ⟨m', hscan⟩ := hscan
  refine ⟨m₁.lexer.token, m', fs, ?_, hpending'.kind hbeyond.active, hpending'.raw,
    hpending'.fragments, ?_⟩
  · unfold lexerNext Machine.nextToken
    rw [hscan]
    rfl
  · show Morsels none .double 0 m₁.lexer.raw fs body
    rw [hpending'.raw]
    exact hmorsels

open Parse in
/-- The first token of a lexer comes into the lookahead of a fresh parse. -/
theorem peekRaw_first (list : Option (Closing → Bool → Position → P Ast)) {rounds : ℕ}
    (hrounds : 1 ≤ rounds) (parser : Parser) {result : LexResult} {m' : Machine}
    (hnext : parser.machine.lexerNext d 0 = (result, m')) :
    (∀ t, result = .token t →
      ∃ r, (peekRaw d rounds list).run { parser } = (.ok (some (.mk t [])), r)) ∧
    (result = .eof → ∃ r, (peekRaw d rounds list).run { parser } = (.ok none, r)) := by
  obtain ⟨n, rfl⟩ := Nat.exists_eq_add_of_le' hrounds
  have hrun : (peekRaw d (n + 1) list).run { parser } = (peekLoop d list (n + 1)).run { parser } := rfl
  have hdepth : Run.depth { parser } = 0 := rfl
  constructor
  · rintro t rfl
    have hlook : Run.next d { parser } =
        (.token t, (Run.onMachine { parser } m').publish t) := by
      simp only [Run.next, hdepth, hnext]
    rw [hrun, peekLoop, Program.run_bind_ok (Program.run_update _ _), hlook]
    exact ⟨_, rfl⟩
  · rintro rfl
    have hlook : Run.next d { parser } =
        (.eof, { Run.onMachine { parser } m' with frame := { eof := true } }) := by
      simp only [Run.next, hdepth, hnext]
      rfl
    rw [hrun, peekLoop, Program.run_bind_ok (Program.run_update _ _), hlook]
    exact ⟨_, rfl⟩

/-- **An escaped body is read as one word of morsels.** -/
theorem parserDocument_escaped (hd : d.AsciiSafe) (current : Decoder) {rounds : ℕ}
    (hrounds : 1 ≤ rounds) (stack : ℕ) {body : Bytes} (h0 : NulFree body) :
    ∃ t, Parse.parserDocument d current rounds stack (escapeBytes documentActive body) =
        some (.ok (.mk t [])) ∧
      t.kind = .word ∧ t.raw = escapeBytes documentActive body ∧
      Morsels none .double 0 t.raw t.fragments body := by
  unfold Parse.parserDocument
  simp only [feed_document]
  by_cases hne : body = []
  · subst hne
    have heof : ∃ m', (documentMachine []).lexerNext d 0 = (.eof, m') := ⟨_, rfl⟩
    obtain ⟨m', hnext⟩ := heof
    obtain ⟨r, hrun⟩ := (peekRaw_first (Parse.Session.nestedList d current rounds stack) hrounds
      { input := { incoming := [] }, machine := documentMachine [], final := true } hnext).2 rfl
    refine ⟨{ kind := .word, raw := [] }, ?_, rfl, rfl, .nil⟩
    rw [escapeBytes_nil, hrun]
  · obtain ⟨t, m', fs, hnext, hkind, hraw, hfragments, hmorsels⟩ := lexerNext_document hd hne h0
    obtain ⟨r, hrun⟩ := (peekRaw_first (Parse.Session.nestedList d current rounds stack) hrounds
      { input := { incoming := [] }, machine := documentMachine (escapeBytes documentActive body),
        final := true } hnext).1 t rfl
    refine ⟨t, ?_, hkind, hraw, by rw [hfragments]; exact hmorsels⟩
    rw [hrun]

end Reading

/-! ### Expanding -/

section Expanding

variable {F : Type} {env : ExpandEnv} {word : Token} {w t : Bytes} {fs : List Fragment}

/-- The fragments of morsels end where their spelling does. -/
theorem Morsels.nulFree {parent : Option ℕ} {quote : Quote} {o : ℕ}
    (h : Morsels parent quote o w fs t) (h0 : NulFree t) : NulFree w := by
  induction h with
  | nil => simp [NulFree]
  | text h hne start finish ih =>
    simp only [NulFree, List.mem_append, not_or] at h0 ⊢
    exact ⟨ih h0.1, h0.2⟩
  | escape h byte start finish ih =>
    simp only [NulFree, List.mem_append, List.mem_cons, List.not_mem_nil, or_false, not_or] at h0 ⊢
    exact ⟨ih h0.1, by decide, h0.2⟩

theorem Morsels.quote {parent : Option ℕ} {quote : Quote} {o : ℕ}
    (h : Morsels parent quote o w fs t) : ∀ f ∈ fs, f.quote = quote := by
  induction h with
  | nil => simp
  | text h hne start finish ih =>
    intro f hf
    rcases List.mem_append.mp hf with hf | hf
    · exact ih f hf
    · rw [List.mem_singleton.mp hf]
  | escape h byte start finish ih =>
    intro f hf
    rcases List.mem_append.mp hf with hf | hf
    · exact ih f hf
    · rw [List.mem_singleton.mp hf]

/-- What `prepare` keeps behind root fragments that follow each other. -/
structure Rowed (word : Token) (n o : ℕ) (nesting : Nesting) : Prop where
  stack : nesting.stack = if n = 0 then [] else [n - 1]
  closed : Closed word nesting o
  next : ∀ j, j + 1 < n → nesting.next j = j + 1

/-- A morsel at the top level is accepted. -/
theorem Rowed.snoc {lexical : Decoder} {n o : ℕ} {nesting : Nesting} (h : Rowed word n o nesting)
    {f : Fragment} (hget : word.fragments[n]? = some f) (hparent : f.parent = none)
    (hbegin : f.begin = o) (hle : f.begin ≤ f.stop) (hstop : f.stop ≤ word.raw.length)
    (hsize : f.kind = .text ∨ 2 ≤ f.stop - f.begin) (hkind : f.kind ≠ .arithmetic)
    (hpasses : fragmentSyntax lexical word.raw f = true) :
    ∃ nesting', prepareLoop lexical word [f] n nesting = .ok nesting' ∧
      Rowed word (n + 1) f.stop nesting' := by
  obtain ⟨next, hnext, hloop⟩ := @prepareLoop_root lexical word f [] n nesting hparent
    (by rw [hbegin]; exact h.closed) hle hstop hsize hkind hpasses
  refine ⟨_, hloop.trans rfl, by simp, ⟨by simp, fun r hr => ?_⟩, fun j hj => ?_⟩
  · have hr' : r = n := by simpa using hr.symm
    rw [hr', hget]
    simp
  · show next j = j + 1
    rw [hnext, h.stack]
    by_cases hn : n = 0
    · omega
    · rw [if_neg hn]
      by_cases hlast : j = n - 1
      · rw [if_pos (by simp [hlast]), hlast]
        omega
      · rw [if_neg (by simpa using hlast)]
        exact h.next j (by omega)

/-- The first loop of `prepare` accepts morsels. -/
theorem Morsels.accepted (h : Morsels none .double 0 w fs t) (lexical : Decoder)
    {more : List Fragment} {post : Bytes} (hfs : word.fragments = fs ++ more)
    (hraw : word.raw = w ++ post) :
    ∃ nesting, prepareLoop lexical word fs 0 {} = .ok nesting ∧
      Rowed word fs.length w.length nesting := by
  induction h generalizing more post with
  | nil =>
    refine ⟨{}, rfl, rfl, ⟨fun _ => Nat.le_refl _, by simp⟩, fun j hj => ?_⟩
    simp at hj
  | @text w t fs h v hne start finish ih =>
    rw [List.append_assoc] at hfs hraw
    obtain ⟨nesting, hloop, hrowed⟩ := ih hfs hraw
    obtain ⟨nesting', hlast, hrowed'⟩ := @Rowed.snoc _ lexical _ _ _ hrowed
      ⟨.text, .double, none, 0 + w.length, 0 + (w ++ v).length, start, finish⟩ (by simp [hfs]) rfl
      (Nat.zero_add _) (by simp) (by simp [hraw]) (Or.inl rfl) (by simp) rfl
    refine ⟨nesting', ?_, ?_⟩
    · rw [prepareLoop_append, hloop]
      simpa only [Nat.zero_add] using hlast
    · rw [List.length_append]
      simpa using hrowed'
  | @escape w t fs h byte start finish ih =>
    have hspell : word.raw = w ++ [byteOf '\\', byte] ++ post := hraw
    rw [List.append_assoc] at hfs hraw
    obtain ⟨nesting, hloop, hrowed⟩ := ih hfs hraw
    have hpasses : fragmentSyntax lexical word.raw
        ⟨.escape, .double, none, 0 + w.length, 0 + w.length + 2, start, finish⟩ = true := by
      have hfirst : word.raw[w.length]? = some (byteOf '\\') := by simp [hraw]
      have hslice : slice word.raw (w.length + 1) (w.length + 2) = [byte] := by
        have hmid := slice_middle (w ++ [byteOf '\\']) [byte] post
        rw [hspell, show w ++ [byteOf '\\', byte] = (w ++ [byteOf '\\']) ++ [byte] by simp]
        rwa [List.length_append] at hmid
      have hwidth : lexical.characterLength [byte] true = 1 := by
        rw [Decoder.characterLength_cons_final]
        split
        · rfl
        · exact Decoder.characterBytes_singleton byte
      simp [fragmentSyntax, hfirst, hslice, hwidth]
    obtain ⟨nesting', hlast, hrowed'⟩ := @Rowed.snoc _ lexical _ _ _ hrowed
      ⟨.escape, .double, none, 0 + w.length, 0 + w.length + 2, start, finish⟩ (by simp [hfs]) rfl
      (Nat.zero_add _) (by simp) (by simp [hraw]) (Or.inr (by simp)) (by simp) hpasses
    refine ⟨nesting', ?_, ?_⟩
    · rw [prepareLoop_append, hloop]
      simpa only [Nat.zero_add] using hlast
    · rw [List.length_append]
      simpa using hrowed'

/-- **A word of morsels is accepted**, each of its fragments leading to the next. -/
theorem prepare_morsels (h : Morsels none .double 0 word.raw word.fragments t)
    (hkind : word.kind = .word) (h0 : NulFree t) (env : ExpandEnv) :
    ∃ prepared, prepare env word = .ok prepared ∧
      ∀ j < word.fragments.length, prepared.next j = j + 1 := by
  obtain ⟨nesting, hloop, hrowed⟩ := @Morsels.accepted word _ _ _ h env.lexical [] [] (by simp) (by simp)
  have hnul : word.raw.contains 0 = false := by
    rw [List.contains_eq_mem, decide_eq_false_iff_not]
    exact h.nulFree h0
  have hquotes : ∀ f ∈ word.fragments, f.quote ≠ .dollarSingle := by
    intro f hf
    rw [h.quote f hf]
    exact Quote.noConfusion
  refine ⟨⟨endsOf word nesting, fun _ => []⟩, ?_, fun j hj => ?_⟩
  · simp only [prepare, hkind, hnul, hloop, decodeLoop_plain hquotes]
    rfl
  · show endsOf word nesting j = j + 1
    have hstack : nesting.stack = [word.fragments.length - 1] := by
      rw [hrowed.stack, if_neg (by omega)]
    unfold endsOf
    rw [hstack]
    by_cases hlast : j = word.fragments.length - 1
    · rw [if_pos (by simp [hlast])]
      omega
    · rw [if_neg (by simpa using hlast)]
      exact hrowed.next j (by omega)

theorem siblingsFrom_row {next : ℕ → ℕ} {limit : ℕ} (h : ∀ j < limit, next j = j + 1) (steps : ℕ)
    (i : ℕ) (hsteps : i + steps = limit) : siblingsFrom next limit steps i = List.range' i steps := by
  induction steps generalizing i with
  | zero => rfl
  | succ steps ih =>
    rw [siblingsFrom, if_pos (by omega), h i (by omega), ih (i + 1) (by omega), List.range'_succ]

/-- The expansion of spans in one field, which the first span makes. -/
def rowOf (context : ExpandContext) (spans : List Span) : Expansion :=
  { fields := if spans = [] then [] else [spans], context }

theorem append_rowOf (context : ExpandContext) (spans : List Span) (bytes : Bytes) (quote : Quote)
    (origin : ExpandOrigin) (keep : Bool) :
    ∃ split, append (rowOf context spans) bytes quote origin keep =
        rowOf context (spans ++ [⟨bytes, quote, origin, split, keep⟩]) ∧
      (context ≠ .argument → split = false) := by
  refine ⟨context == .argument && quote == .none && origin != .literal && origin != .tilde, ?_,
    fun hcontext => by simp [hcontext]⟩
  by_cases hs : spans = []
  · simp [append, rowOf, hs]
  · simp [append, rowOf, hs]

/-- The spans of morsels: whole and protected. -/
def Unsplit (spans : List Span) : Prop :=
  ∀ span ∈ spans, span.split = false ∧ span.keepEmpty = true ∧ span.quote ≠ .none

theorem Unsplit.snoc {spans : List Span} (h : Unsplit spans) {bytes : Bytes} {quote : Quote}
    {origin : ExpandOrigin} (hquote : quote ≠ .none) :
    Unsplit (spans ++ [⟨bytes, quote, origin, false, true⟩]) := by
  intro span hspan
  rcases List.mem_append.mp hspan with hmem | hmem
  · exact h span hmem
  · rw [List.mem_singleton.mp hmem]
    exact ⟨rfl, rfl, hquote⟩

/-- **The walk over morsels** appends what they stand for. -/
theorem rangeLoop_morsels (h : Morsels none .double 0 w fs t) {prepared : Prepared}
    {options : ExpandOptions F} {ranger : Ranger F} {tilde : Tilde} {tildeOk : Bool} {work : Work F}
    {context : ExpandContext} (hcontext : context ≠ .argument) {more : List Fragment} {post : Bytes}
    (hfs : word.fragments = fs ++ more) (hraw : word.raw = w ++ post) (rest : List ℕ) :
    ∃ spans tildeOk', Unsplit spans ∧ spans.flatMap Span.text = t ∧
      rangeLoop env word prepared options ranger none word.raw.length .literal tilde
          (List.range fs.length ++ rest) 0 tildeOk work (rowOf context []) =
        rangeLoop env word prepared options ranger none word.raw.length .literal tilde rest w.length
          tildeOk' work (rowOf context spans) := by
  induction h generalizing more post rest with
  | nil => exact ⟨[], tildeOk, by simp [Unsplit], rfl, rfl⟩
  | @text w t fs h v hne start finish ih =>
    have hspell : word.raw = w ++ v ++ post := hraw
    rw [List.append_assoc] at hfs hraw
    obtain ⟨spans, tildeOk', hunsplit, htext, hloop⟩ := ih hfs hraw (fs.length :: rest)
    have hget : word.fragments[fs.length]? =
        some ⟨.text, .double, none, 0 + w.length, 0 + (w ++ v).length, start, finish⟩ := by simp [hfs]
    have hpos : 0 < v.length := List.length_pos_iff.mpr hne
    have hlen : 0 + (w ++ v).length ≤ word.raw.length := by simp [hraw]
    obtain ⟨tildeOk'', hstep⟩ := @rangeLoop_text F env word prepared options ranger none
      word.raw.length .literal tilde fs.length rest tildeOk' work (rowOf context spans) _ hget rfl
      (by simp; omega) hlen hlen (fun hquote => by simp at hquote)
    have hslice : slice word.raw w.length (w ++ v).length = v := by
      rw [hspell, List.length_append]
      exact slice_middle w v post
    obtain ⟨split, happend, hsplit⟩ := append_rowOf context spans v .double .literal true
    refine ⟨spans ++ [⟨v, .double, .literal, split, true⟩], tildeOk'', ?_, by simp [htext], ?_⟩
    · rw [hsplit hcontext]
      exact hunsplit.snoc (by simp)
    · rw [List.length_append, List.length_singleton, List.range_succ, List.append_assoc,
        List.singleton_append, hloop]
      simp only [Nat.zero_add] at hstep
      rw [hstep, hslice]
      exact congrArg _ happend
  | @escape w t fs h byte start finish ih =>
    have hspell : word.raw = w ++ [byteOf '\\', byte] ++ post := hraw
    rw [List.append_assoc] at hfs hraw
    obtain ⟨spans, tildeOk', hunsplit, htext, hloop⟩ := ih hfs hraw (fs.length :: rest)
    have hget : word.fragments[fs.length]? =
        some ⟨.escape, .double, none, 0 + w.length, 0 + w.length + 2, start, finish⟩ := by simp [hfs]
    have hslice : slice word.raw (w.length + 1) (w.length + 2) = [byte] := by
      have hmid := slice_middle (w ++ [byteOf '\\']) [byte] post
      rw [hspell, show w ++ [byteOf '\\', byte] = (w ++ [byteOf '\\']) ++ [byte] by simp]
      rwa [List.length_append] at hmid
    obtain ⟨split, happend, hsplit⟩ := append_rowOf context spans [byte] .single .literal true
    refine ⟨spans ++ [⟨[byte], .single, .literal, split, true⟩], false, ?_, by simp [htext], ?_⟩
    · rw [hsplit hcontext]
      exact hunsplit.snoc (by simp)
    · rw [List.length_append, List.length_singleton, List.range_succ, List.append_assoc,
        List.singleton_append, hloop, rangeLoop_whole hget (by simp) (by simp) (by simp) (by simp [hraw])
          (by simp)]
      simp only [wholeFragment, Nat.zero_add, hslice, happend, Reply.andThen, if_true,
        List.length_append, List.length_cons, List.length_nil]

/-- The children of no parent are all the fragments. -/
theorem children_row {next : ℕ → ℕ} (h : ∀ j < word.fragments.length, next j = j + 1) :
    children word next none = List.range word.fragments.length := by
  have hrow := siblingsFrom_row h word.fragments.length 0 (Nat.zero_add _)
  rw [List.range_eq_range', ← hrow]
  simp [children]

/-- **A word of morsels expands to one field of what they stand for.** -/
theorem expandWord_morsels (h : Morsels none .double 0 word.raw word.fragments t)
    (hkind : word.kind = .word) (h0 : NulFree t) {stack : ℕ} (hstack : 1 ≤ stack) {s : State F}
    (hsave : s.save = some s) {options : ExpandOptions F} (hcontext : options.context = .heredoc) :
    ∃ spans, Unsplit spans ∧ spans.flatMap Span.text = t ∧
      expandWord env stack s word options = ⟨.ok, s, rowOf .heredoc spans, {}⟩ := by
  obtain ⟨prepared, hprepare, hnext⟩ := prepare_morsels h hkind h0 env
  obtain ⟨k, rfl⟩ := Nat.exists_eq_add_of_le' hstack
  obtain ⟨spans, tildeOk', hunsplit, htext, hloop⟩ := @rangeLoop_morsels F env word _ _ _ h prepared
    options (range env word prepared options k) .off false { state := s } .heredoc (by simp) [] []
    (by simp) (by simp) []
  have hrange : range env word prepared options (k + 1) none 0 word.raw.length .literal .off
      { state := s } { context := .heredoc } = ⟨.ok, { state := s }, rowOf .heredoc spans⟩ := by
    rw [range, children_row hnext]
    rw [List.append_nil] at hloop
    refine Eq.trans ?_ (hloop.trans ?_)
    · rfl
    · rw [rangeLoop]
  refine ⟨spans, hunsplit, htext, ?_⟩
  simp only [expandWord, hprepare, hsave, hcontext, rootTilde, hrange, if_true]

/-- Protected spans are delivered as they are. -/
theorem expandFields_unsplit {spans : List Span} (hunsplit : Unsplit spans)
    (h0 : NulFree (spans.flatMap Span.text)) (s : State F) :
    expandFields env s (rowOf .heredoc spans) =
      (.ok, { fields := if spans = [] then [] else [spans.flatMap Span.text] }, {}) := by
  by_cases hs : spans = []
  · subst hs
    rfl
  · have hvalid : spans.all Span.wellFormed = true := by
      rw [List.all_eq_true]
      intro span hspan
      obtain ⟨hsplit, hkeep, hquote⟩ := hunsplit span hspan
      have hnul : (0 : UInt8) ∉ span.text := fun hmem => h0 (List.mem_flatMap.mpr ⟨span, hspan, hmem⟩)
      simp [Span.wellFormed, hsplit, hquote, hnul]
    have hcells : rawOf (spans.flatMap allCells) = spans.flatMap Span.text := by
      rw [rawOf, List.map_flatMap]
      exact List.flatMap_congr fun span _ => rawOf_allCells span
    have hfields : finishFields env .heredoc (ifsOf s) s.info.options [spans] {} =
        (.ok, { fields := [spans.flatMap Span.text] }) := by
      rw [finishFields_one, finishField, if_pos hvalid,
        finishLoop_unsplit (fun span hspan => ⟨(hunsplit span hspan).1, fun _ => (hunsplit span hspan).2.1⟩)
          [] _ _ (Or.inl hs)]
      simp [emit, Output.append, hcells]
    simp only [expandFields, rowOf, hs, if_false, hfields]

theorem prepareScalar_morsels (h : Morsels none .double 0 word.raw word.fragments t)
    (hkind : word.kind = .word) (h0 : NulFree t) {stack : ℕ} (hstack : 1 ≤ stack) {s : State F}
    (hsave : s.save = some s) (substitute : Substitute F) :
    prepareScalar env stack substitute s word 0 .heredoc = (.ok t, s) := by
  obtain ⟨spans, hunsplit, htext, hexpand⟩ := @expandWord_morsels F env word t h hkind h0 stack hstack s
    hsave { context := .heredoc, substitute := some substitute } rfl
  have hfields := @expandFields_unsplit F env spans hunsplit (by rw [htext]; exact h0) s
  unfold prepareScalar prepareFields
  rw [if_neg (Nat.not_lt_zero _)]
  simp only [if_true, hsave, hexpand, hfields, htext]
  by_cases hs : spans = []
  · subst hs
    simp only [if_true]
    rw [← htext]
    rfl
  · simp only [hs, if_false]

end Expanding

/-- **A body with a backslash before each active byte is delivered as it was, and so is
a body without active bytes.**  The source encoding has no byte below 0x80 in a longer
character; every other byte, and the current encoding, the state, the stack and the
executor, are arbitrary. -/
theorem redirectDocument_escaped {F : Type} (env : ExpandEnv) (hlexical : env.lexical.AsciiSafe)
    (rounds parserStack stack : ℕ) (hrounds : 1 ≤ rounds) (hstack : 1 ≤ stack)
    (execute : Parse.Word → Substitute F) (s : State F) (hs : s.Reachable)
    (document : Parse.Document) (hquoted : document.delimiterQuoted = false) (body : Bytes)
    (h0 : NulFree body) :
    Parse.redirectDocument env rounds parserStack stack execute s
        { document with body := some (escapeBytes documentActive body) } = some (.ok body, s) ∧
      ((∀ byte ∈ body, documentActive byte = false) →
        Parse.redirectDocument env rounds parserStack stack execute s
          { document with body := some body } = some (.ok body, s)) := by
  have hescaped : Parse.redirectDocument env rounds parserStack stack execute s
      { document with body := some (escapeBytes documentActive body) } = some (.ok body, s) := by
    obtain ⟨t, hread, hkind, hraw, hmorsels⟩ := @parserDocument_escaped env.lexical hlexical
      env.current rounds hrounds parserStack body h0
    have hscalar := @prepareScalar_morsels F env t body hmorsels hkind h0 stack hstack s hs.save_eq
      (execute (.mk t []))
    simp only [Parse.redirectDocument, hquoted, hread, Bool.false_eq_true, if_false]
    exact congrArg some hscalar
  refine ⟨hescaped, fun hplain => ?_⟩
  rwa [escapeBytes_of_plain hplain] at hescaped

/-- A document that ends at `EOF`. -/
def eofDocument : Parse.Document :=
  { operatorKind := .dless, delimiter := ascii "EOF", delimiterQuoted := false,
    operandPosition := {} }

/-- Quotes, a comment sign, a tilde, wildcards and operators are text. -/
theorem redirectDocument_escaped_quotes :
    Parse.redirectDocument .bare 1 0 1 (fun _ _ _ _ e => (.deferred, [], e)) fresh
        { eofDocument with body := some (ascii "\\$x \"it's\" # ~ *?[a] (b)|\n") } =
      some (.ok (ascii "$x \"it's\" # ~ *?[a] (b)|\n"), fresh) :=
  (redirectDocument_escaped .bare Decoder.posix_asciiSafe 1 0 1 (Nat.le_refl 1) (Nat.le_refl 1)
    (fun _ _ _ _ e => (.deferred, [], e)) fresh (.create ..) eofDocument rfl
    (ascii "$x \"it's\" # ~ *?[a] (b)|\n") (by decide +kernel)).1

end Quoting
end CShell
