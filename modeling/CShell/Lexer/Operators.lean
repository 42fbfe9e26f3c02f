import CShell.Lexer.Coherence

/-!
# Operators

An operator grows by one logical character at a time.  `operator_step` looks at the next
one and takes it, with the continuations before it, when the table has what results.
Every beginning of an operator is an operator, so the last one found is the longest; and
what was looked at and not taken is still on the tape.

Between two characters the lexer may run out of input, and be fed and asked again.

## Main definitions

* `Next` — what a scan for the next character finds.
* `Munches` — the rounds, feeds and lookaheads in the middle of a token.
* `Munching` — the pending operator is in the table, and its spelling is what was read.

## Main results

* `Munching.step_munch` — what a round of `operator_step` does.
* `operators_maximal` — **operators are maximal munch over the continuation-free text.**

## References

`src/lexer.c` (`operators`, `operator_step`, `delimiter`).
-/

namespace CShell
namespace Lexical

open Machine List

variable {d : Decoder} {m m₁ m₂ : Machine}

/-! ### The table -/

/-- Every beginning of an operator is an operator. -/
theorem operators_closed : ∀ op ∈ operators, ∀ n < op.1.length,
    ∃ op' ∈ operators, op'.1 = op.1.take (n + 1) := by
  decide

theorem operatorChar_apart : ∀ byte ∈ ascii "|&;()<>", byte ≠ 0 ∧ byte ≠ byteOf '\\' ∧
    byte ≠ byteOf ' ' ∧ byte ≠ byteOf '\t' ∧ byte ≠ byteOf '\n' ∧ byte.toNat < 128 := by
  decide +kernel

/-- A byte that begins an operator is one. -/
theorem operators_byte : ∀ byte ∈ ascii "|&;()<>",
    ∀ other, ([byte], ((operators.find? fun op => op.1 == [byte]).map Prod.snd).getD other) ∈ operators := by
  intro byte hmem other
  obtain ⟨op, hop⟩ := Option.isSome_iff_exists.mp
    ((Option.isSome_map ▸ (operators_single byte hmem).1 : (operators.find? fun op => op.1 == [byte]).isSome = true))
  have hbyte : op.1 = [byte] := by simpa using find?_some hop
  rw [hop, ← hbyte]
  exact mem_of_find?_eq_some hop

/-- No operator longer than `text` begins the continuation-free text. -/
def Longest (text logical : Bytes) : Prop :=
  ∀ op ∈ operators, op.1 <+: logical → op.1.length ≤ text.length

/-- An operator that goes on behind a text goes on with a byte of the table. -/
theorem longest_of {text logical : Bytes}
    (h : ∀ byte, logical.head? = some byte → ∀ op ∈ operators, op.1 ≠ text ++ [byte]) :
    Longest text (text ++ logical) := by
  intro op hop hprefix
  by_contra hlt
  obtain ⟨tail, htail⟩ : text <+: op.1 :=
    prefix_of_prefix_length_le (prefix_append _ _) hprefix (Nat.le_of_not_le hlt)
  cases tail with
  | nil =>
    rw [← htail, append_nil] at hlt
    exact hlt (Nat.le_refl _)
  | cons byte tail =>
    obtain ⟨op', hop', htake⟩ := operators_closed op hop text.length (Nat.lt_of_not_le hlt)
    refine h byte ?_ op' hop' ?_
    · rw [← htail, prefix_append_right_inj] at hprefix
      obtain ⟨more, rfl⟩ := hprefix
      rfl
    · rw [htake, ← htail, take_append, take_of_length_le (Nat.le_succ _),
        Nat.add_sub_cancel_left]
      rfl

/-! ### The next character -/

/-- What a scan for the next character finds: nothing that is settled, the end, or a
character behind continuations. -/
inductive Next (final : Bool) (text : Bytes) : Look → Prop
  | more (hf : final = false) : Next final text .more
  | eof (hf : final = true) (hw : Spells [] text) : Next final text .eof
  | wide {w tail : Bytes} {byte : UInt8} (heq : text = w ++ byte :: tail) (hw : Spells [] w)
      (hbyte : ¬byte.toNat < 128) (physical : ℕ) : Next final text (.wide physical)
  | byte {w tail : Bytes} {byte : UInt8} (heq : text = w ++ byte :: tail) (hw : Spells [] w)
      (hpair : byte = byteOf '\\' → tail.head? ≠ some (byteOf '\n') ∧ (tail = [] → final = true))
      {physical : ℕ} (hone : byte.toNat < 128 → physical = w.length + 1) :
      Next final text (.byte byte physical)

theorem lookFrom_ahead {final : Bool} {text w rest : Bytes} (heq : text = w ++ rest) (hw : Spells [] w) :
    Next final text (lookFrom d final rest w.length 0) := by
  induction hlen : rest.length using Nat.strong_induction_on generalizing w rest with
  | _ length ih =>
    cases rest with
    | nil =>
      rw [lookFrom.eq_def]
      cases final with
      | false => exact .more rfl
      | true =>
        rw [append_nil] at heq
        exact .eof rfl (heq ▸ hw)
    | cons byte rest =>
      rw [lookFrom_cons]
      split
      · next hwait => exact .more hwait.2.2
      · next hwait =>
        split
        · next hpair =>
          obtain ⟨rfl, hnewline⟩ := hpair
          obtain ⟨rest, rfl⟩ := head?_eq_some_iff.mp hnewline
          have hnext := @ih rest.length (by rw [← hlen, length_cons, length_cons]; omega)
            (w ++ [byteOf '\\', byteOf '\n']) rest (by rw [heq, append_assoc]; rfl) hw.continuation rfl
          rw [length_append] at hnext
          exact hnext
        · next hpair =>
          split
          · next hzero =>
            refine .more ?_
            cases final with
            | false => rfl
            | true => exact absurd hzero (Decoder.characterLength_final_pos (cons_ne_nil _ _)).ne'
          · next hzero =>
            dsimp only
            split
            · next hwide =>
              refine .wide heq hw ?_ _
              intro hascii
              rw [characterLength_ascii rfl hascii] at hwide
              exact absurd hwide (Nat.lt_irrefl 1)
            · next hwide =>
              refine .byte heq hw ?_ ?_
              · intro hslash
                refine ⟨fun hnewline => hpair ⟨hslash, hnewline⟩, fun hnil => ?_⟩
                by_contra hfinal
                exact hwait ⟨hslash, hnil, Bool.eq_false_of_not_eq_true hfinal⟩
              · intro hascii
                rw [characterLength_ascii rfl hascii]

/-- What was found stays the next character, whatever is fed. -/
theorem head_spliced {w tail more : Bytes} {byte : UInt8} (hw : Spells [] w)
    (hpair : byte = byteOf '\\' → tail.head? ≠ some (byteOf '\n') ∧ (tail = [] → more = [])) :
    (spliced (w ++ byte :: tail ++ more)).head? = some byte := by
  rw [append_assoc, hw.spliced_append not_mem_nil, cons_append, spliced_cons]
  · rfl
  · rintro ⟨hslash, hnewline⟩
    obtain ⟨hne, hnil⟩ := hpair hslash
    cases tail with
    | nil =>
      rw [hnil rfl] at hnewline
      cases hnewline
    | cons second tail => exact hne hnewline

/-! ### Munching -/

variable (d) in
/-- The lexer is asked for a token until it has one, and is fed and asked what follows
meanwhile.  The bytes are those of the feeds. -/
inductive Munches (m : Machine) : Bytes → Machine → Prop
  | refl : Munches m [] m
  | round {fed : Bytes} {m₁ m₂ : Machine} (h : Munches m fed m₁) (hs : m₁.step d = .again m₂) :
      Munches m fed m₂
  | more {fed : Bytes} {m₁ m₂ : Machine} (h : Munches m fed m₁) (hs : m₁.step d = .done .more m₂) :
      Munches m fed m₂
  | feed {fed : Bytes} {m₁ m₂ : Machine} (h : Munches m fed m₁) (bytes : Bytes) (final : Bool)
      (hf : m₁.feed bytes final = (true, m₂)) : Munches m (fed ++ bytes) m₂
  | look {fed : Bytes} {m₁ : Machine} (h : Munches m fed m₁) :
      Munches m fed (m₁.followsRedirection d).2

variable (d) in
/-- An operator is about to begin. -/
structure Poised (m : Machine) : Prop where
  idle : m.lexer.active = false
  comment : m.lexer.comment = false
  document : m.lexer.document = false
  frames : m.lexer.frames = []
  raw : m.lexer.raw = []
  begins : ∃ byte rest, m.source.unread = byte :: rest ∧ operatorChar byte = true
  failure : m.source.failure = none
  foresees : Foresees d m

variable (d) in
/-- The pending operator is in the table, and its spelling is what was read. -/
structure Munching (m : Machine) : Prop where
  active : m.lexer.active = true
  operator : (m.lexer.operatorText, m.lexer.kind) ∈ operators
  spans : Spans m.lexer.operatorText m.lexer.raw
  failure : m.source.failure = none
  foresees : Foresees d m

/-- Nothing was read. -/
structure Waits (m m' : Machine) : Prop where
  lexer : m'.lexer = m.lexer
  unread : m'.source.unread = m.source.unread
  final : m'.source.final = m.source.final

variable (d) in
/-- The ends of a round in a pending operator. -/
inductive Munch (m : Machine) : Step → Prop
  | more {m' : Machine} (h : Munching d m') (hw : Waits m m') (hf : m.source.final = false) :
      Munch m (.done .more m')
  | extend {m' : Machine} (h : Munching d m')
      (hraw : m'.lexer.raw ++ m'.source.unread = m.lexer.raw ++ m.source.unread)
      (hf : m'.source.final = m.source.final)
      (hlt : m'.source.unread.length < m.source.unread.length) : Munch m (.again m')
  | broken {m' : Machine} (h : (0 : UInt8) ∈ m.source.unread) : Munch m (.done .error m')
  | publish {m' : Machine} (hu : m'.source.unread = m.source.unread)
      (hf : m'.source.final = m.source.final)
      (hl : ∀ more : Bytes, (m.source.final = true → more = []) →
        Longest m.lexer.operatorText (m.lexer.operatorText ++ spliced (m.source.unread ++ more))) :
      Munch m (.done (.token m.lexer.token) m')

theorem Foresees.coherent (h : Foresees d m) (hn : m.source.failure = none) : Coherent d m.source := by
  refine h.source.resolve_right ?_
  intro hreleased
  have hsome := hreleased.failure
  rw [hn] at hsome
  cases hsome

theorem Munching.looked (h : Munching d m) (wanted : ℕ) :
    Munching d (m.peek d wanted).2 ∧ Waits m (m.peek d wanted).2 := by
  have hkeep := Foresees.steady.peek h.foresees wanted
  obtain ⟨c, heq⟩ := peek_eq (d := d) m wanted
  rw [heq] at hkeep ⊢
  exact ⟨⟨h.active, h.operator, h.spans, h.failure, hkeep⟩, rfl, rfl, rfl⟩

theorem Spans.extend {text raw w : Bytes} (h : Spans text raw) (hw : Spells [] w) (byte : UInt8) :
    Spans (text ++ [byte]) (raw ++ (w ++ [byte])) := by
  refine ⟨text, raw ++ w, byte, rfl, (append_assoc _ _ _).symm, ?_⟩
  have happend := h.spells.append hw
  rwa [append_nil] at happend

/-- The next character is taken with the continuations before it. -/
theorem Munching.extended (h : Munching d m) {w tail : Bytes} {byte : UInt8}
    (hb : m.source.unread = w ++ byte :: tail) (hw : Spells [] w) {kind : TokenKind}
    (hop : (m.lexer.operatorText ++ [byte], kind) ∈ operators) :
    Munch d m (m.extendOperator (m.lexer.operatorText ++ [byte]) kind (w.length + 1)) := by
  let m₀ : Machine := m.onLexer fun l => { l with kind }
  have hforesees : Foresees d m₀ := Foresees.steady.onLexer h.foresees (List.Subset.refl _)
  have hkeep := Foresees.steady.delimiter hforesees .none (w.length + 1)
  unfold extendOperator
  cases hd : m₀.delimiter .none (w.length + 1) with
  | error m' =>
    refine .broken ?_
    -- Only a NUL stops it.
    by_contra h0
    have hb₀ : m₀.source.unread = (w ++ [byte]) ++ tail := by
      rw [append_assoc]
      exact hb
    obtain ⟨m'', htotal, -⟩ := @delimiter_total m₀ .none (w ++ [byte]) tail hb₀ (by
      intro hmem
      apply h0
      rw [hb]
      rcases mem_append.mp hmem with hmem | hmem
      · exact mem_append_left _ hmem
      · exact mem_append_right _ (mem_singleton.mp hmem ▸ mem_cons_self))
    rw [length_append, length_singleton, hd] at htotal
    cases htotal
  | ok m' =>
    rw [hd] at hkeep
    obtain ⟨-, read, hlen, htook⟩ := @delimiter_took m₀ m' (fun _ _ => True) .none (w.length + 1) h.active
      (fun _ _ _ _ => trivial) (fun _ _ _ _ _ _ _ _ => trivial) trivial hd
    have hreads := delimiter_reads hd
    -- What was taken is what was looked at.
    obtain ⟨rfl, hrest⟩ : read = w ++ [byte] ∧ m'.source.unread = tail := by
      refine append_inj ?_ ?_
      · rw [← htook.unread, append_assoc]
        exact hb
      · rw [hlen, length_append, length_singleton]
    have hraw : m'.lexer.raw = m.lexer.raw ++ (w ++ [byte]) := htook.raw_active h.active
    refine .extend ?_ ?_ hreads.final ?_
    · refine ⟨hreads.active.trans h.active, ?_, ?_, hreads.failure.trans h.failure, ?_⟩
      · show (m.lexer.operatorText ++ [byte], m'.lexer.kind) ∈ operators
        rw [show m'.lexer.kind = kind from hreads.kind]
        exact hop
      · show Spans (m.lexer.operatorText ++ [byte]) m'.lexer.raw
        rw [hraw]
        exact h.spans.extend hw byte
      · exact Foresees.steady.onLexer hkeep (List.Subset.refl _)
    · show m'.lexer.raw ++ m'.source.unread = _
      rw [hraw, hrest, hb, append_assoc, append_assoc]
      rfl
    · show m'.source.unread.length < _
      rw [hrest, hb, length_append, length_cons]
      omega

/-- A NUL is not taken. -/
theorem extended_nul {w tail text : Bytes} (hb : m.source.unread = w ++ 0 :: tail)
    (hi : m.lexer.active = true) {kind : TokenKind} :
    Munch d m (m.extendOperator text kind (w.length + 1)) := by
  have hmem : (0 : UInt8) ∈ m.source.unread := by
    rw [hb]
    exact mem_append_right _ mem_cons_self
  let m₀ : Machine := m.onLexer fun l => { l with kind }
  unfold extendOperator
  cases hd : m₀.delimiter .none (w.length + 1) with
  | error m' => exact .broken hmem
  | ok m' =>
    obtain ⟨-, read, hlen, htook⟩ := @delimiter_took m₀ m' (fun _ _ => True) .none (w.length + 1) hi
      (fun _ _ _ _ => trivial) (fun _ _ _ _ _ _ _ _ => trivial) trivial hd
    obtain ⟨hread, -⟩ : read = w ++ [0] ∧ m'.source.unread = tail := by
      refine append_inj ?_ ?_
      · rw [← htook.unread, append_assoc]
        exact hb
      · rw [hlen, length_append, length_singleton]
    refine absurd ?_ htook.nonzero
    rw [hread]
    exact mem_append_right _ mem_cons_self

theorem Waits.publish (hw : Waits m m₁) (hl : ∀ more : Bytes, (m.source.final = true → more = []) →
      Longest m.lexer.operatorText (m.lexer.operatorText ++ spliced (m.source.unread ++ more))) :
    Munch d m m₁.publish := by
  unfold Machine.publish
  rw [hw.lexer]
  exact .publish hw.unread hw.final hl

theorem Waits.munch (hw : Waits m m₁) {s : Step} (h : Munch d m₁ s) : Munch d m s := by
  cases h with
  | more h hw' hf =>
    exact .more h ⟨hw'.lexer.trans hw.lexer, hw'.unread.trans hw.unread, hw'.final.trans hw.final⟩
      (hw.final ▸ hf)
  | extend h hraw hf hlt =>
    rw [hw.lexer, hw.unread] at hraw
    rw [hw.unread] at hlt
    exact .extend h hraw (hf.trans hw.final) hlt
  | broken h => exact .broken (hw.unread ▸ h)
  | publish hu hf hl =>
    rw [hw.final, hw.lexer, hw.unread] at hl
    rw [hw.lexer]
    exact .publish (hu.trans hw.unread) (hf.trans hw.final) hl

/-- A pending operator that cannot go on is the longest. -/
theorem longest_of_any {text : Bytes}
    (hx : operators.any (fun op => text.isPrefixOf op.1 && decide (text.length < op.1.length)) ≠ true)
    (logical : Bytes) : Longest text (text ++ logical) := by
  intro op hop hprefix
  by_contra hlt
  refine hx (any_eq_true.mpr ⟨op, hop, ?_⟩)
  rw [Bool.and_eq_true, decide_eq_true_eq, isPrefixOf_iff_prefix]
  exact ⟨prefix_of_prefix_length_le (prefix_append _ _) hprefix (Nat.le_of_not_le hlt),
    Nat.lt_of_not_le hlt⟩

/-- **A round in a pending operator** waits for input, takes one more character or
publishes the longest operator. -/
theorem Munching.step_munch (h : Munching d m) : Munch d m (m.step d) := by
  have hword := (operators_extend _ h.operator).1
  unfold step
  rw [if_pos ⟨h.active, hword⟩]
  unfold operatorStep
  dsimp only
  split
  · next hx =>
    have hlook := (peek_eq_lookFrom (h.foresees.coherent h.failure) 0).1
    have hnext := @lookFrom_ahead d m.source.final _ [] _ (nil_append m.source.unread).symm .nil
    obtain ⟨hkeep, hwaits⟩ := h.looked 0
    rw [length_nil, ← hlook] at hnext
    generalize m.peek d 0 = answer at hkeep hwaits hnext ⊢
    obtain ⟨look, m₁⟩ := answer
    -- What is found stays the next character, so an operator that goes on goes on with it.
    have hstays : ∀ {w tail : Bytes} {byte : UInt8}, m.source.unread = w ++ byte :: tail → Spells [] w →
        (byte = byteOf '\\' → tail.head? ≠ some (byteOf '\n') ∧ (tail = [] → m.source.final = true)) →
        (∀ op ∈ operators, op.1 ≠ m.lexer.operatorText ++ [byte]) → Munch d m m₁.publish := by
      intro w tail byte heq hw hpair hnone
      refine hwaits.publish fun more hmore => longest_of ?_
      intro byte' hhead
      rw [heq, head_spliced hw fun hslash =>
        ⟨(hpair hslash).1, fun hnil => hmore ((hpair hslash).2 hnil)⟩] at hhead
      cases hhead
      exact hnone
    cases hnext with
    | more hf => exact .more hkeep hwaits hf
    | eof hf hw =>
      refine hwaits.publish fun more hmore => longest_of ?_
      intro byte hhead
      have hnil := hw.spliced_append not_mem_nil more
      rw [hmore hf] at hnil hhead
      rw [hnil] at hhead
      cases hhead
    | @wide w tail byte heq hw hbyte physical =>
      refine hstays heq hw ?_ ?_
      · rintro rfl
        exact absurd (by decide) hbyte
      · intro op hop hext
        refine hbyte (operators_ascii op hop byte ?_).2.2
        rw [hext]
        exact mem_append_right _ mem_cons_self
    | @byte w tail byte heq hw hpair physical hone =>
      dsimp only
      have hspelled : candidate m.lexer.operatorText byte =
          if byte = 0 then m.lexer.operatorText else m.lexer.operatorText ++ [byte] := rfl
      split
      · next hfind =>
        refine hstays heq hw hpair ?_
        intro op hop hext
        refine absurd ?_ (find?_eq_none.mp hfind op hop)
        rw [beq_iff_eq, hext, hspelled, if_neg]
        rintro rfl
        have hzero := find?_eq_none.mp hfind _ h.operator
        rw [hspelled, if_pos rfl] at hzero
        exact hzero (beq_self_eq_true _)
      · next op hfind =>
        have hop := mem_of_find?_eq_some hfind
        have hext : op.1 = candidate m.lexer.operatorText byte := by simpa using find?_some hfind
        show Munch d m (m₁.extendOperator (candidate m.lexer.operatorText byte) op.2 physical)
        refine hwaits.munch ?_
        have heq₁ : m₁.source.unread = w ++ byte :: tail := hwaits.unread.trans heq
        rw [← hwaits.lexer] at hext ⊢
        rw [hone ?_]
        · by_cases h0 : byte = 0
          · subst h0
            exact extended_nul heq₁ hkeep.active
          · unfold candidate at hext ⊢
            rw [if_neg h0] at hext ⊢
            exact hkeep.extended heq₁ hw (hext ▸ hop)
        · by_cases h0 : byte = 0
          · rw [h0]
            decide
          · refine (operators_ascii op hop byte ?_).2.2
            unfold candidate at hext
            rw [hext, if_neg h0]
            exact mem_append_right _ mem_cons_self
  · next hx => exact .publish rfl rfl fun more _ => longest_of_any hx _

/-! ### The first character -/

/-- Outside a token, an operator character starts one. -/
theorem Poised.step_eq (h : Poised d m) {byte : UInt8} {rest : Bytes} (hb : m.source.unread = byte :: rest)
    (ho : operatorChar byte = true) :
    m.step d = m.startOperator byte fun l =>
      ((operators.find? fun op => op.1 == [byte]).map Prod.snd).getD l.kind := by
  obtain ⟨h0, hslash, hspace, htab, hnewline, hascii⟩ := operatorChar_apart byte (by
    unfold operatorChar at ho
    simpa using ho)
  have hbyte : m.source.data.getD m.source.cursor 0 = byte := by
    have hget := getD_unread m.source 0
    rw [hb] at hget
    exact hget
  have hclear : (m.onLexer fun l => { l with comment := false }) = m := by
    have hsame : { m.lexer with comment := false } = m.lexer := by rw [← h.comment]
    unfold onLexer
    dsimp only
    rw [hsame]
  have hwidth : d.characterLength m.source.unread m.source.final = 1 :=
    characterLength_ascii (by rw [hb]; rfl) hascii
  have hframe := inFrame_nil h.frames
  have hleft : ¬(m.lexer.active = true ∧ m.lexer.kind ≠ .word) := by
    rintro ⟨hactive, -⟩
    rw [h.idle] at hactive
    cases hactive
  have hcomment : ¬(m.lexer.comment = true ∧ byte ≠ byteOf '\n') := by
    rintro ⟨hcomment, -⟩
    rw [h.comment] at hcomment
    cases hcomment
  unfold step
  dsimp only
  rw [if_neg hleft, if_neg (by rw [hb]; exact cons_ne_nil _ _), hbyte, if_neg h0, if_neg hcomment,
    hclear, hframe, if_neg Bool.false_ne_true, hwidth, if_neg Nat.one_ne_zero, if_neg (Nat.lt_irrefl 1)]
  have hseparator : m.lexer.document = false ∧ m.lexer.frames = [] ∧
      (byte = byteOf ' ' ∨ byte = byteOf '\t' ∨ byte = byteOf '\n' ∨ operatorChar byte = true) :=
    ⟨h.document, h.frames, .inr (.inr (.inr ho))⟩
  have hplain : m.plainByte d byte = m.separatorStep byte := by
    unfold plainByte
    rw [hframe, hframe, Bool.or_self, if_neg Bool.false_ne_true, if_pos hseparator]
  unfold byteStep arithmeticByte escapeByte
  simp only [hframe, hslash, hplain, Bool.false_eq_true, false_and, if_false, ne_eq, not_false_eq_true,
    if_true, Bool.not_false]
  unfold separatorStep startOperator
  rw [h.idle, if_neg Bool.false_ne_true, if_neg (not_or.mpr ⟨hspace, htab⟩), if_neg hnewline]

/-- The first character of an operator is taken. -/
theorem Poised.step_starts (h : Poised d m) :
    ∃ m', m.step d = .again m' ∧ Munching d m' ∧
      m'.lexer.raw ++ m'.source.unread = m.source.unread ∧ m'.source.final = m.source.final := by
  obtain ⟨byte, rest, hb, ho⟩ := h.begins
  have hmem : byte ∈ ascii "|&;()<>" := by
    unfold operatorChar at ho
    simpa using ho
  rw [h.step_eq hb ho]
  let f : Lexer → Lexer := fun l => { l with
    operatorText := [byte],
    kind := ((operators.find? fun op => op.1 == [byte]).map Prod.snd).getD l.kind }
  let m₀ : Machine := m.startToken.onLexer f
  have hactive : m₀.lexer.active = true := startToken_active m f fun _ => rfl
  have hforesees : Foresees d m₀ :=
    Foresees.steady.onLexer (Foresees.steady.startToken h.foresees) (List.Subset.refl _)
  obtain ⟨m', hconsume, hrest⟩ := @consume_total m₀ [byte] rest hb (by
    intro h0
    exact (operatorChar_apart byte hmem).1 (mem_singleton.mp h0).symm)
  have hreads := consume_reads hconsume
  have hkeep := hforesees.consume [byte].length
  rw [hconsume] at hkeep
  obtain ⟨raw, position, hlexer⟩ := consume_lexer _ hconsume
  obtain ⟨read, hlen, htook⟩ := consume_took hconsume
  have hread : read = [byte] := by
    refine (append_inj (?_ : read ++ m'.source.unread = [byte] ++ rest) hlen).1
    rw [← htook.unread]
    exact hb
  have hraw : m'.lexer.raw = [byte] := by
    rw [htook.raw_active hactive, hread]
    show m.startToken.lexer.raw ++ [byte] = [byte]
    rw [(startToken_lexer m).2.2.1, h.raw]
    rfl
  refine ⟨m', ?_, ⟨hreads.active.trans hactive, ?_, ?_, hreads.failure.trans h.failure, hkeep⟩, ?_,
    hreads.final⟩
  · show Step.attempt (m₀.consume [byte].length) = _
    rw [hconsume]
    rfl
  · rw [hlexer]
    exact operators_byte byte hmem _
  · rw [hraw, hlexer]
    exact ⟨[], [], byte, rfl, rfl, .nil⟩
  · rw [hraw, hrest, hb]
    rfl

theorem Poised.looked (h : Poised d m) (wanted : ℕ) : Poised d (m.peek d wanted).2 := by
  have hkeep := Foresees.steady.peek h.foresees wanted
  obtain ⟨c, heq⟩ := peek_eq (d := d) m wanted
  rw [heq] at hkeep ⊢
  exact ⟨h.idle, h.comment, h.document, h.frames, h.raw, h.begins, h.failure, hkeep⟩

/-! ### Runs -/

/-- What a feed does to the tape and to the pending token. -/
theorem feed_spec {m' : Machine} (hd : d.Decisive) (h : Foresees d m) {bytes : Bytes} {final : Bool}
    (hf : m.feed bytes final = (true, m')) :
    m'.source.failure = none ∧ m'.source.unread = m.source.unread ++ bytes ∧
      m'.lexer = m.lexer.feed bytes final ∧ Foresees d m' := by
  rcases feed_cases m bytes final with ⟨m₁, heq, -⟩ | ⟨hn, hfinal, heq⟩
  · rw [heq] at hf
    cases hf
  · rw [heq] at hf
    cases hf
    exact ⟨hn, rfl, rfl, h.feed hd hn hfinal bytes final⟩

/-- The token that began is an operator of the table, and the tape goes on behind its
spelling. -/
theorem Munches.munching (hd : d.Decisive) (h : Poised d m) {fed : Bytes} (hm : Munches d m fed m₁) :
    (Poised d m₁ ∨ Munching d m₁) ∧ m₁.lexer.raw ++ m₁.source.unread = m.source.unread ++ fed := by
  induction hm with
  | refl =>
    refine ⟨.inl h, ?_⟩
    rw [h.raw, append_nil]
    rfl
  | @round fed m₁ m₂ _ hs ih =>
    obtain ⟨hpoised | hmunching, hraw⟩ := ih
    · obtain ⟨m', hstep, hmunching, hrest, -⟩ := hpoised.step_starts
      rw [hs] at hstep
      cases hstep
      rw [hpoised.raw] at hraw
      exact ⟨.inr hmunching, hrest.trans hraw⟩
    · have hmunch := hmunching.step_munch
      rw [hs] at hmunch
      cases hmunch with
      | extend hmunching hrest _ _ => exact ⟨.inr hmunching, hrest.trans hraw⟩
  | @more fed m₁ m₂ _ hs ih =>
    obtain ⟨hpoised | hmunching, hraw⟩ := ih
    · obtain ⟨m', hstep, -, -⟩ := hpoised.step_starts
      rw [hs] at hstep
      cases hstep
    · have hmunch := hmunching.step_munch
      rw [hs] at hmunch
      cases hmunch with
      | more hmunching hwaits _ =>
        rw [hwaits.lexer, hwaits.unread]
        exact ⟨.inr hmunching, hraw⟩
  | @feed fed m₁ m₂ _ bytes final hf ih =>
    obtain ⟨hcases, hraw⟩ := ih
    have hforesees : Foresees d m₁ := hcases.elim (fun h => h.foresees) fun h => h.foresees
    obtain ⟨hn, hunread, hlexer, hkeep⟩ := feed_spec hd hforesees hf
    refine ⟨?_, ?_⟩
    · rcases hcases with hpoised | hmunching
      · obtain ⟨byte, rest, hb, ho⟩ := hpoised.begins
        refine .inl ⟨hlexer ▸ hpoised.idle, hlexer ▸ hpoised.comment, hlexer ▸ hpoised.document,
          hlexer ▸ hpoised.frames, hlexer ▸ hpoised.raw, ⟨byte, rest ++ bytes, ?_, ho⟩, hn, hkeep⟩
        rw [hunread, hb]
        rfl
      · exact .inr ⟨hlexer ▸ hmunching.active, hlexer ▸ hmunching.operator, hlexer ▸ hmunching.spans, hn, hkeep⟩
    · rw [hlexer, hunread, ← append_assoc, ← append_assoc, ← hraw]
      rfl
  | @look fed m₁ _ ih =>
    obtain ⟨hcases, hraw⟩ := ih
    rw [Session.followsRedirection_eq, peek_lexer, peek_unread]
    exact ⟨hcases.imp (fun h => h.looked 0) fun h => (h.looked 0).1, hraw⟩

theorem Munches.trans {fed fed' : Bytes} (h : Munches d m fed m₁) (h' : Munches d m₁ fed' m₂) :
    Munches d m (fed ++ fed') m₂ := by
  induction h' with
  | refl =>
    rw [append_nil]
    exact h
  | round _ hs ih => exact ih.round hs
  | more _ hs ih => exact ih.more hs
  | feed _ bytes final hf ih =>
    rw [← append_assoc]
    exact ih.feed bytes final hf
  | look _ ih => exact ih.look

theorem Munching.nonzero (h : Munching d m) : (0 : UInt8) ∉ m.lexer.raw := by
  intro h0
  rcases h.spans.spells.mem h0 with hmem | hslash | hnewline
  · exact (operators_ascii _ h.operator 0 hmem).1 rfl
  · exact absurd hslash (by decide)
  · exact absurd hnewline (by decide)

/-- With all the input there, the operator is published. -/
theorem Munching.ends (h : Munching d m) (hf : m.source.final = true) (h0 : (0 : UInt8) ∉ m.source.unread) :
    ∃ m₁ t m', Munches d m [] m₁ ∧ m₁.step d = .done (.token t) m' := by
  induction hlen : m.source.unread.length using Nat.strong_induction_on generalizing m with
  | _ length ih =>
    have hmunch := h.step_munch
    cases hstep : m.step d with
    | again m₁ =>
      rw [hstep] at hmunch
      cases hmunch with
      | extend hmunching hraw hfinal hlt =>
        have hnul : (0 : UInt8) ∉ m₁.source.unread := by
          intro hmem
          have hin : (0 : UInt8) ∈ m.lexer.raw ++ m.source.unread := by
            rw [← hraw]
            exact mem_append_right _ hmem
          exact (mem_append.mp hin).elim h.nonzero h0
        obtain ⟨m₂, t, m', hmunches, htoken⟩ := ih _ (hlen ▸ hlt) hmunching (hfinal.trans hf) hnul rfl
        exact ⟨m₂, t, m', (Munches.refl.round hstep).trans hmunches, htoken⟩
    | done result m₁ =>
      rw [hstep] at hmunch
      cases hmunch with
      | more _ _ hwait =>
        rw [hf] at hwait
        cases hwait
      | broken hnul => exact absurd hnul h0
      | publish => exact ⟨m, _, m₁, .refl, hstep⟩

/-- A pending operator that is published is the longest one that begins what was there
when it started, whatever is fed afterwards. -/
theorem Munching.published (h : Munching d m) {t : Token} {m' : Machine}
    (hs : m.step d = .done (.token t) m') :
    t.raw ++ m'.source.unread = m.lexer.raw ++ m.source.unread ∧
      ∃ op ∈ operators, t.kind = op.2 ∧ Spans op.1 t.raw ∧
        ∀ more : Bytes, (m'.source.final = true → more = []) →
          op.1 <+: spliced (m.lexer.raw ++ m.source.unread ++ more) ∧
            Longest op.1 (spliced (m.lexer.raw ++ m.source.unread ++ more)) := by
  have hmunch := h.step_munch
  rw [hs] at hmunch
  cases hmunch with
  | publish hu hf hl =>
    refine ⟨congrArg (m.lexer.raw ++ ·) hu, _, h.operator, rfl, h.spans, ?_⟩
    intro more hmore
    rw [append_assoc, h.spans.spells.spliced_append fun hslash =>
      (operators_ascii _ h.operator _ hslash).2.1 rfl]
    exact ⟨prefix_append _ _, hl more (hf ▸ hmore)⟩

theorem Occurs.poised (hd : d.Decisive) {name : Bytes} {origin : Position} {document : Bool}
    (hm : Occurs d name origin document m) (hn : m.source.failure = none)
    (hi : m.lexer.active = false) (hc : m.lexer.comment = false) (hdocument : m.lexer.document = false)
    {byte : UInt8} {rest : Bytes} (hb : m.source.unread = byte :: rest) (ho : operatorChar byte = true) :
    Poised d m := by
  rcases hm.survives with ⟨bases, hrested⟩ | hdead
  · obtain ⟨hraw, -, hframes⟩ := (hrested.2 hn).idle hi
    exact ⟨hi, hc, hdocument, hframes, hraw, ⟨byte, rest, hb, ho⟩, hn, hm.foresees hd⟩
  · have hsome := hdead.1
    rw [hn] at hsome
    cases hsome

/-- **Operators are maximal munch over the continuation-free text.**  Wherever an operator
character starts a token, and however the lexer is fed and asked until the token is
published: the token is the longest operator that begins the tape without its
continuations, its spelling is the bytes of the tape with the continuations inside it,
and the tape goes on right behind it.  Once the last bytes are there the token comes, if
no NUL is among them. -/
theorem operators_maximal (d : Decoder) (hd : d.Decisive) (name : Bytes) (origin : Position) (document : Bool)
    (m : Machine) (hm : Occurs d name origin document m) (hn : m.source.failure = none)
    (hi : m.lexer.active = false) (hc : m.lexer.comment = false) (hdocument : m.lexer.document = false)
    (byte : UInt8) (rest : Bytes) (hb : m.source.unread = byte :: rest) (ho : operatorChar byte = true)
    (fed : Bytes) (m₁ : Machine) (hmunches : Munches d m fed m₁) :
    (∀ t m', m₁.step d = .done (.token t) m' →
      t.raw ++ m'.source.unread = m.source.unread ++ fed ∧
        ∃ op ∈ operators, t.kind = op.2 ∧ Spans op.1 t.raw ∧
          ∀ more : Bytes, (m'.source.final = true → more = []) →
            op.1 <+: spliced (m.source.unread ++ fed ++ more) ∧
              Longest op.1 (spliced (m.source.unread ++ fed ++ more))) ∧
      (m₁.source.final = true → (0 : UInt8) ∉ m₁.source.unread →
        ∃ m₂ t m', Munches d m₁ [] m₂ ∧ m₂.step d = .done (.token t) m') := by
  obtain ⟨hcases, hraw⟩ := hmunches.munching hd (hm.poised hd hn hi hc hdocument hb ho)
  rw [← hraw]
  rcases hcases with hpoised | hmunching
  · obtain ⟨m₂, hstep, hmunching, hrest, hfinal⟩ := hpoised.step_starts
    refine ⟨?_, ?_⟩
    · intro t m' htoken
      rw [hstep] at htoken
      cases htoken
    · intro hf h0
      have hnul : (0 : UInt8) ∉ m₂.source.unread := by
        intro hmem
        apply h0
        rw [← hrest]
        exact mem_append_right _ hmem
      obtain ⟨m₃, t, m', hmunches', htoken⟩ := hmunching.ends (hfinal.trans hf) hnul
      exact ⟨m₃, t, m', (Munches.refl.round hstep).trans hmunches', htoken⟩
  · exact ⟨fun t m' htoken => hmunching.published htoken, hmunching.ends⟩

/-- `<<-` is read with a continuation behind its first character, and a feed there. -/
theorem operators_maximal_continued :
    let start := ((Session.start [] ⟨0, 1, 1⟩ false).run .posix [.feed (ascii "<\\\n") false]).machine
    let waits := ((start.step .posix).machine.step .posix).machine
    let last := (((waits.feed (ascii "<-x") true).2.step .posix).machine.step .posix).machine
    ∃ t m', last.step .posix = .done (.token t) m' ∧ t.kind = .dlessDash ∧
      t.raw ++ m'.source.unread = ascii "<\\\n<-x" := by
  intro start waits last
  have hmunches : Munches .posix start (ascii "<-x") last :=
    ((((Munches.refl.round (by decide +kernel : start.step .posix = .again (start.step .posix).machine)).more
      (by decide +kernel : _ = Step.done .more waits)).feed (ascii "<-x") true
        (by decide +kernel : _ = (true, (waits.feed (ascii "<-x") true).2))).round
          (by decide +kernel : _ = Step.again ((waits.feed (ascii "<-x") true).2.step .posix).machine)).round
            (by decide +kernel : _ = Step.again last)
  have hmaximal := operators_maximal .posix Decoder.posix_decisive [] ⟨0, 1, 1⟩ false start
    (.run [.feed (ascii "<\\\n") false]) (by decide +kernel) (by decide +kernel) (by decide +kernel)
    (by decide +kernel) (byteOf '<') (ascii "\\\n") (by decide +kernel) (by decide +kernel) _ last hmunches
  refine ⟨last.lexer.token, (last.step .posix).machine, by decide +kernel, by decide +kernel, ?_⟩
  exact (hmaximal.1 _ (last.step .posix).machine (by decide +kernel)).1

end Lexical
end CShell
