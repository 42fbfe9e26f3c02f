import CShell.Expand.Word
import CShell.State.Reachable

/-!
# Quoted data is inert

A value that reaches the output through double quotes passes span construction,
the splitter, the pattern encoder and the wildcard detector.  None of them acts
on its bytes: the spans are not split, every byte that could be a wildcard gets a
backslash, and the detector, which steps through the encoded text by characters,
never mistakes a byte.  The last point needs an encoding in which the bytes below
0x80 are no part of longer characters.

## Main definitions

* `protect` — the encoding of quoted bytes, `protectBy` the one by characters.
* `QuotedParameter` — the word that is one parameter in double quotes.

## Main results

* `makePattern_quoted` — quoted cells are encoded by `protect`.
* `hasPattern_protect` — a protected text has no active wildcard.
* `expandFields_quoted` — quoted values come out as they are.
* `quotedParameter_inert` — **`"$@"` yields the positional parameters and `"$v"`
  the value of `v`, and no directory is read.**
-/

namespace CShell

open List

/-! ### The pattern encoder on quoted bytes -/

/-- A byte the encoder puts a backslash before when it is quoted. -/
def activeByte (byte : UInt8) : Bool := byte == byteOf '\\' || protectedByte byte

/-- Quoted bytes as the encoder writes them. -/
def protect (text : Bytes) : Bytes :=
  text.flatMap fun byte => if activeByte byte then [byteOf '\\', byte] else [byte]

theorem protect_cons_of_active {byte : UInt8} (h : activeByte byte) (rest : Bytes) :
    protect (byte :: rest) = byteOf '\\' :: byte :: protect rest := by
  simp [protect, h]

theorem protect_cons_of_not_active {byte : UInt8} (h : activeByte byte = false) (rest : Bytes) :
    protect (byte :: rest) = byte :: protect rest := by
  simp [protect, h]

theorem protect_append (a b : Bytes) : protect (a ++ b) = protect a ++ protect b :=
  flatMap_append

/-- A byte that is not active differs from every active one. -/
theorem beq_of_not_active {byte c : UInt8} (h : activeByte byte = false) (hc : activeByte c) :
    (byte == c) = false := by
  rw [beq_eq_false_iff_ne]
  rintro rfl
  rw [h] at hc
  cases hc

/-- Active bytes are ASCII. -/
theorem lt_of_activeByte {byte : UInt8} (h : activeByte byte) : byte < 0x80 := by
  have hlist : byte ∈ ascii "\\*?[]-!^" := by
    simpa [activeByte, protectedByte, ascii, byteOf] using h
  have hall : (ascii "\\*?[]-!^").all (fun b => b.toNat < 128) = true := by decide
  have hbyte : byte.toNat < 128 := of_decide_eq_true (all_eq_true.mp hall byte hlist)
  exact hbyte

/-- High bytes are written as they are. -/
theorem protect_of_high {text : Bytes} (h : ∀ byte ∈ text, ¬byte < 0x80) : protect text = text := by
  induction text with
  | nil => rfl
  | cons byte rest ih =>
    have hbyte : activeByte byte = false :=
      Bool.eq_false_iff.mpr fun hactive => h byte mem_cons_self (lt_of_activeByte hactive)
    rw [protect_cons_of_not_active hbyte, ih fun b hb => h b (mem_cons_of_mem byte hb)]

/-- High bytes at the front of a protected text are those of the text. -/
theorem drop_protect {text : Bytes} {n : ℕ} (h : ∀ byte ∈ (protect text).take n, ¬byte < 0x80) :
    (protect text).drop n = protect (text.drop n) := by
  induction n generalizing text with
  | zero => rfl
  | succ n ih =>
    cases text with
    | nil => rfl
    | cons byte rest =>
      have hbyte : activeByte byte = false := by
        rw [Bool.eq_false_iff]
        intro hactive
        rw [protect_cons_of_active hactive, take_succ_cons] at h
        exact h (byteOf '\\') mem_cons_self (by decide)
      rw [protect_cons_of_not_active hbyte, take_succ_cons] at h
      rw [protect_cons_of_not_active hbyte, drop_succ_cons, drop_succ_cons]
      exact ih fun b hb => h b (mem_cons_of_mem byte hb)

variable {d : Decoder} {cells : List Cell} {value : Bytes}

/-- In an ASCII-safe encoding a character is one byte or consists of high bytes. -/
theorem Decoder.AsciiSafe.high (hd : d.AsciiSafe) {text : Bytes}
    (h : 1 < d.characterLength text true) :
    ∀ byte ∈ text.take (d.characterLength text true), ¬byte < 0x80 := by
  cases text with
  | nil => cases h
  | cons first rest =>
    rw [Decoder.characterLength_cons_final] at h ⊢
    split at h
    · exact absurd h (by decide)
    · rename_i hfirst
      rw [if_neg hfirst]
      unfold Decoder.characterBytes at h ⊢
      split at h
      · rename_i n hn
        split at h
        · exact absurd h (by decide)
        · rename_i hzero
          simp only [hzero, if_false]
          exact hd _ n hn h
      · exact absurd h (by decide)

/-- Quoted bytes as the encoder writes them: a multibyte character is copied. -/
def protectBy (d : Decoder) (text : Bytes) : Bytes :=
  match text with
  | [] => []
  | byte :: rest =>
    let width := d.characterLength (byte :: rest) true
    if 1 < width then (byte :: rest).take width ++ protectBy d (rest.drop (width - 1))
    else if activeByte byte then byteOf '\\' :: byte :: protectBy d rest
    else byte :: protectBy d rest
termination_by text.length
decreasing_by all_goals simp only [List.length_drop, List.length_cons]; omega

/-- Where a multibyte character contains no active byte, the encoder works byte by
byte. -/
theorem protectBy_eq (hd : d.AsciiSafe) (text : Bytes) :
    protectBy d text = protect text := by
  fun_induction protectBy d text with
  | case1 => rfl
  | case2 byte rest width hwidth ih =>
    have hhigh := hd.high hwidth
    obtain ⟨k, hk⟩ : ∃ k, width = k + 1 := ⟨_, (Nat.succ_pred_eq_of_pos (Nat.zero_lt_of_lt hwidth)).symm⟩
    have hcopy : protect ((byte :: rest).take width) = (byte :: rest).take width :=
      protect_of_high hhigh
    have hrest : (byte :: rest).drop width = rest.drop (width - 1) := by
      rw [hk, drop_succ_cons, Nat.add_sub_cancel]
    conv_rhs => rw [← take_append_drop width (byte :: rest)]
    rw [protect_append, hcopy, hrest, ih]
  | case3 byte rest width _ hactive ih => rw [protect_cons_of_active hactive, ih]
  | case4 byte rest width _ hactive ih =>
    rw [protect_cons_of_not_active (Bool.eq_false_iff.mpr hactive), ih]

/-- **The pattern encoder on quoted cells.** -/
theorem makePattern_protectBy (d : Decoder) (context : ExpandContext)
    (hcells : ∀ cell ∈ cells, cell.quoted) :
    makePattern d context cells false .outside = protectBy d (rawOf cells) := by
  -- by strong induction: a long character is copied whole
  induction hn : cells.length using Nat.strong_induction_on generalizing cells with
  | h n ih =>
    cases cells with
    | nil =>
      rw [makePattern, rawOf, map_nil, protectBy]
    | cons cell rest =>
      have hquoted : cell.quoted = true := hcells cell mem_cons_self
      have hrest : ∀ k, makePattern d context (rest.drop k) false .outside =
          protectBy d (rawOf (rest.drop k)) := by
        intro k
        refine ih (rest.drop k).length ?_ (fun c hc => ?_) rfl
        · simp only [length_drop, ← hn, length_cons]
          omega
        · exact hcells c (mem_cons_of_mem cell (mem_of_mem_drop hc))
      have hnext := hrest 0
      rw [drop_zero] at hnext
      have hraw : rawOf (cell :: rest) = cell.byte :: rawOf rest := rfl
      rw [makePattern, hraw, protectBy]
      simp only [hquoted]
      split
      · have hmember : Bracket.outside.member = .outside := rfl
        rw [hmember, hrest]
        simp only [rawOf, map_take, map_drop, map_cons]
      · simp only [Bool.not_true, Bool.and_false, Bool.false_eq_true, if_false, Bool.true_or,
          Bool.and_true, Bool.true_and, Bool.false_or, ne_eq, not_true_eq_false, decide_false,
          Bool.false_and, bne_self_eq_false, ite_self]
        have hstep : Bracket.outside.step cell.byte true false = .outside := by
          simp [Bracket.step]
        rw [hstep, hnext]
        by_cases hactive : activeByte cell.byte
        · rw [if_pos hactive]
          exact if_pos hactive
        · have hplain : activeByte cell.byte = false := Bool.eq_false_iff.mpr hactive
          have hprotected : protectedByte cell.byte = false := (Bool.or_eq_false_iff.mp hplain).2
          rw [if_neg hactive, beq_of_not_active hplain (by decide), hprotected]
          rfl

theorem makePattern_quoted (hd : d.AsciiSafe) (context : ExpandContext)
    (hcells : ∀ cell ∈ cells, cell.quoted) :
    makePattern d context cells false .outside = protect (rawOf cells) := by
  rw [makePattern_protectBy d context hcells, protectBy_eq hd]

/-! ### The wildcard detector on protected bytes -/

theorem patternWidth_ascii {d : Decoder} {byte : UInt8} (h : byte < 0x80) (rest : Bytes) :
    d.patternWidth (byte :: rest) = 1 := by
  obtain ⟨k, hk⟩ := Nat.exists_eq_succ_of_ne_zero (Nat.pos_iff_ne_zero.mp d.mbCurMax_pos)
  rw [Decoder.patternWidth, hk, take_succ_cons, Decoder.characterLength_cons_final, if_pos h]

/-- Stepping over a character skips only high bytes behind the first. -/
theorem patternWidth_high (hd : d.AsciiSafe) (text : Bytes)
    (h : 1 < d.patternWidth text) : ∀ byte ∈ text.take (d.patternWidth text), ¬byte < 0x80 := by
  have hhigh := hd.high h
  intro byte hbyte
  rw [take_take] at hhigh
  apply hhigh byte
  have hle : d.patternWidth text ≤ d.mbCurMax := by
    have hne : text.take d.mbCurMax ≠ [] := by
      intro hnil
      rw [Decoder.patternWidth, hnil] at h
      cases h
    have := d.characterLength_final_le hne
    rw [length_take] at this
    exact this.trans (Nat.min_le_left _ _)
  exact (Nat.min_eq_left hle).symm ▸ hbyte

/-- **A protected text has no active wildcard.** -/
theorem hasPattern_protect (hd : d.AsciiSafe) (text : Bytes) :
    hasPattern d (protect text) = false := by
  induction hn : text.length using Nat.strong_induction_on generalizing text with
  | h n ih =>
    cases text with
    | nil => rw [protect, flatMap_nil, hasPattern]
    | cons byte rest =>
      have hlt : rest.length < n := by
        rw [← hn]
        exact Nat.lt_succ_self _
      by_cases hactive : activeByte byte
      · -- the backslash hides the byte behind it
        have hwidth := @patternWidth_ascii d _ (lt_of_activeByte hactive) (protect rest)
        rw [protect_cons_of_active hactive, hasPattern, if_pos (by simp), hwidth,
          drop_succ_cons, drop_zero]
        exact ih _ hlt rest rfl
      · have hplain : activeByte byte = false := Bool.eq_false_iff.mpr hactive
        have hwild : (byte == byteOf '*' || byte == byteOf '?' ||
            (byte == byteOf '[' && hasBracket d (protect rest))) = false := by
          rw [beq_of_not_active hplain (by decide), beq_of_not_active hplain (by decide),
            beq_of_not_active hplain (by decide)]
          rfl
        have hbackslash : (byte == byteOf '\\' && !(protect rest).isEmpty) = false := by
          rw [beq_of_not_active hplain (by decide), Bool.false_and]
        rw [protect_cons_of_not_active hplain, hasPattern, hbackslash, hwild]
        simp only [Bool.false_eq_true, if_false]
        by_cases hwidth : 1 < d.patternWidth (byte :: protect rest)
        · have hhigh := patternWidth_high hd _ hwidth
          obtain ⟨k, hk⟩ : ∃ k, d.patternWidth (byte :: protect rest) = k + 1 :=
            ⟨_, (Nat.succ_pred_eq_of_pos (Nat.zero_lt_of_lt hwidth)).symm⟩
          rw [hk, take_succ_cons] at hhigh
          rw [hk, Nat.add_sub_cancel, drop_protect fun b hb => hhigh b (mem_cons_of_mem byte hb)]
          refine ih _ ?_ (rest.drop k) rfl
          rw [length_drop]
          omega
        · have hzero : d.patternWidth (byte :: protect rest) - 1 = 0 := by omega
          rw [hzero, drop_zero]
          exact ih _ hlt rest rfl

/-! ### Quoted spans through the splitter -/

section Fields

variable {env : ExpandEnv}

/-- A quoted candidate is emitted as it is, whatever the options. -/
theorem emit_quoted (hsafe : env.current.AsciiSafe) (options : UInt32)
    (hcells : ∀ cell ∈ cells, cell.quoted) (out : Output) :
    emit env .argument options cells out = (.ok, out.append (rawOf cells)) := by
  simp only [emit]
  split
  · rfl
  · rw [makePattern_quoted hsafe .argument hcells]
    exact pathnameExpand_of_not_hasPattern (hasPattern_protect hsafe _) _ _ _

/-- The span of a value in double quotes. -/
def quotedSpan (value : Bytes) : Span := ⟨value, .double, .parameter, false, true⟩

theorem quoted_of_mem_cells {offset width : ℕ} :
    ∀ cell ∈ (quotedSpan value).cells offset width, cell.quoted := by
  intro cell hcell
  obtain ⟨byte, _, rfl⟩ := mem_map.mp hcell
  rfl

/-- Inside a quoted value the loop only copies. -/
theorem finishLoop_quoted (hsafe : env.current.AsciiSafe) (ifs : Bytes) (options : UInt32)
    {offset : ℕ} (hoffset : offset ≤ value.length) (hne : value ≠ [])
    (hcells : ∀ cell ∈ cells, cell.quoted)
    (hraw : rawOf cells = value.take offset) (keep : Bool) (out : Output) :
    finishLoop env .argument ifs options [quotedSpan value] offset cells keep out =
      (.ok, out.append value) := by
  induction hn : value.length - offset using Nat.strong_induction_on generalizing offset cells with
  | h n ih =>
    by_cases hend : offset < value.length
    · have hcur : current [quotedSpan value] offset = ([quotedSpan value], offset) := by
        simp [current, quotedSpan, hend]
      have hdrop : value.drop offset ≠ [] := by simpa using hend
      have hpos := env.current.characterLength_final_pos hdrop
      have hle := env.current.characterLength_final_le hdrop
      rw [length_drop] at hle
      rw [finishLoop_of_character cells keep out hcur (by simpa [quotedSpan] using hne) rfl]
      show finishLoop env .argument ifs options [quotedSpan value]
        (offset + env.current.characterLength (value.drop offset) true) _ keep out = _
      generalize hw : env.current.characterLength ((quotedSpan value).text.drop offset) true = width
      have hw' : env.current.characterLength (value.drop offset) true = width := hw
      rw [hw'] at hpos hle ⊢
      refine ih (value.length - (offset + width)) (by omega) (by omega) ?_ ?_ rfl
      · intro cell hcell
        rcases mem_append.mp hcell with hold | hnew
        · exact hcells cell hold
        · exact quoted_of_mem_cells cell hnew
      · have hcopy : rawOf ((quotedSpan value).cells offset width) = (value.drop offset).take width := by
          rw [rawOf, Span.cells, map_map]
          exact map_id _
        rw [rawOf, map_append]
        show rawOf cells ++ rawOf ((quotedSpan value).cells offset width) = _
        rw [hraw, hcopy, take_add]
    · have hoff : offset = value.length := Nat.le_antisymm hoffset (Nat.le_of_not_lt hend)
      have hcur : current [quotedSpan value] offset = ([], 0) := by
        simp [current, quotedSpan, hend, hne]
      rw [hoff, take_length] at hraw
      have hnonempty : (!cells.isEmpty || keep) = true := by
        cases cells with
        | nil => exact absurd hraw.symm hne
        | cons cell rest => rfl
      rw [finishLoop_of_done cells keep out hcur, if_pos hnonempty, emit_quoted hsafe options hcells,
        hraw]

/-- A field that is one quoted value comes out as that value, empty or not. -/
theorem finishField_quoted (hsafe : env.current.AsciiSafe) (ifs : Bytes) (options : UInt32)
    (hnul : NulFree value) (out : Output) :
    finishField env .argument ifs options [quotedSpan value] out = (.ok, out.append value) := by
  have hvalid : [quotedSpan value].all Span.wellFormed = true := by
    simpa [Span.wellFormed, quotedSpan, NulFree] using hnul
  rw [finishField, if_pos hvalid]
  by_cases hne : value = []
  · subst hne
    have hcur : current [quotedSpan []] 0 = ([quotedSpan []], 0) := rfl
    rw [finishLoop_of_empty [] _ out hcur rfl]
    rw [finishLoop_of_done [] true out (show current [] 0 = ([], 0) from rfl)]
    exact emit_quoted hsafe options (by simp) out
  · exact finishLoop_quoted hsafe ifs options (Nat.zero_le _) hne (by simp) rfl _ out

/-- **Quoted values come out as they are**, one field each, and the file system is
left alone. -/
theorem expandFields_quoted {F : Type} (hsafe : env.current.AsciiSafe) (s : State F)
    {values : List Bytes} (hnul : ∀ value ∈ values, NulFree value) :
    expandFields env s { fields := values.map fun value => [quotedSpan value] } =
      (.ok, { fields := values, log := [] }, {}) := by
  have hfields : ∀ (values : List Bytes) (out : Output), (∀ value ∈ values, NulFree value) →
      finishFields env .argument (ifsOf s) s.info.options (values.map fun value => [quotedSpan value])
        out = (.ok, { out with fields := out.fields ++ values }) := by
    intro values
    induction values with
    | nil =>
      intro out _
      simp [finishFields]
    | cons value values ih =>
      intro out hnul
      have hhead := finishField_quoted hsafe (ifsOf s) s.info.options
        (hnul value mem_cons_self) out
      have htail := ih (out.append value) fun v hv => hnul v (mem_cons_of_mem value hv)
      simp only [map_cons, finishFields, hhead, htail, Output.append_fields,
        Output.append_log, append_assoc, singleton_append]
  have h := hfields values {} hnul
  rw [expandFields, h]
  rfl

end Fields

/-! ### The word -/

namespace Expand

/-- The word that is one parameter in double quotes, as the lexer publishes it. -/
structure QuotedParameter (word : Token) (name : Bytes) : Prop where
  kind : word.kind = .word
  raw : word.raw = ascii "\"$" ++ name ++ ascii "\""
  fragments : ∃ start finish start' finish', word.fragments =
    [⟨.quoted, .double, none, 0, name.length + 3, start, finish⟩,
      ⟨.parameter, .double, some 0, 1, name.length + 2, start', finish'⟩]

/-- A parameter that can stand behind a bare dollar sign: `@` or a name. -/
def BareName (name : Bytes) : Prop := name = ascii "@" ∨ validName name

theorem logical_of_get {raw : Bytes} {pos stop : ℕ} {byte : UInt8} (hlt : pos < stop)
    (hget : raw[pos]? = some byte) (hne : byte ≠ byteOf '\\') :
    logical raw pos stop = (some byte, pos + 1) := by
  have hskip : skipContinuations raw pos stop = pos := by
    rw [skipContinuations, if_neg]
    rintro ⟨_, hbackslash, _⟩
    rw [hget, Option.some.injEq] at hbackslash
    exact hne hbackslash
  simp only [logical, hskip, if_pos hlt, hget]

theorem logical_at_end (raw : Bytes) (stop : ℕ) : logical raw stop stop = (none, stop) := by
  have hskip : skipContinuations raw stop stop = stop := by
    rw [skipContinuations, if_neg]
    omega
  simp only [logical, hskip, Nat.lt_irrefl, if_false]

/-- A run of accepted bytes up to the end is read whole. -/
theorem nameBytes_run {accepts : UInt8 → Bool} (hbackslash : accepts (byteOf '\\') = false)
    {raw run : Bytes} {pos : ℕ} (hrun : ∀ i < run.length, raw[pos + i]? = run[i]?)
    (haccepts : ∀ byte ∈ run, accepts byte) :
    nameBytes accepts raw pos (pos + run.length) = (run, pos + run.length) := by
  induction run generalizing pos with
  | nil =>
    rw [nameBytes]
    split
    · rename_i byte hbyte
      rw [length_nil, Nat.add_zero, logical_at_end] at hbyte
      cases hbyte
    · rfl
  | cons byte run ih =>
    have hbyte : accepts byte := haccepts byte mem_cons_self
    have hne : byte ≠ byteOf '\\' := by
      rintro rfl
      rw [hbackslash] at hbyte
      cases hbyte
    have hget : raw[pos]? = some byte := hrun 0 (Nat.succ_pos _)
    have hlogical := logical_of_get (Nat.lt_add_of_pos_right (Nat.succ_pos run.length)) hget hne
    have hshift : pos + (byte :: run).length = pos + 1 + run.length := by
      rw [length_cons]
      omega
    have hrest := @ih (pos + 1)
      (fun i hi => by
        have h := hrun (i + 1) (Nat.succ_lt_succ hi)
        rw [getElem?_cons_succ] at h
        rw [← h, Nat.add_assoc, Nat.add_comm 1 i])
      (fun b hb => haccepts b (mem_cons_of_mem byte hb))
    rw [← hshift] at hrest
    rw [nameBytes]
    split
    · rename_i b hb
      rw [length_cons, hlogical] at hb
      cases hb
      rw [if_pos hbyte, length_cons, hlogical]
      rw [length_cons] at hrest
      simp only [hrest]
    · rename_i hnone
      rw [length_cons, hlogical] at hnone
      cases hnone

section Header

variable {name : Bytes}

theorem raw_get_dollar (name : Bytes) :
    (ascii "\"$" ++ name ++ ascii "\"")[1]? = some (byteOf '$') := rfl

theorem raw_get_name (name : Bytes) {i : ℕ} (hi : i < name.length) :
    (ascii "\"$" ++ name ++ ascii "\"")[2 + i]? = name[i]? := by
  rw [append_assoc, getElem?_append_right (by simp [ascii]),
    getElem?_append_left (by simpa [ascii] using hi)]
  simp [ascii]

theorem raw_get_last (name : Bytes) :
    (ascii "\"$" ++ name ++ ascii "\"")[name.length + 2]? = some (byteOf '"') := by
  rw [getElem?_append_right (by simp [ascii])]
  simp [ascii, byteOf]

/-- The name of a bare parameter is read up to its end. -/
theorem parameterName_bare {c : UInt8} {rest : Bytes} (hname : BareName (c :: rest)) :
    parameterName (ascii "\"$" ++ (c :: rest) ++ ascii "\"") c false 3 (3 + rest.length) =
      some (c :: rest, 3 + rest.length) := by
  unfold parameterName
  rcases hname with hat | hvalid
  · cases hat
    rfl
  · obtain ⟨hstart, hrest⟩ := Bool.and_eq_true_iff.mp hvalid
    have hrun := @nameBytes_run nameByte (by decide) (ascii "\"$" ++ (c :: rest) ++ ascii "\"") rest 3
      (fun i hi => by
        have h := raw_get_name (c :: rest) (Nat.succ_lt_succ hi)
        rw [getElem?_cons_succ] at h
        rw [← h, show 3 + i = 2 + (i + 1) by omega])
      (all_eq_true.mp hrest)
    rw [if_pos hstart, hrun]

theorem bareName_head {c : UInt8} {rest : Bytes} (hname : BareName (c :: rest)) :
    c ≠ byteOf '\\' ∧ c ≠ byteOf '{' := by
  rcases hname with hat | hvalid
  · cases hat
    decide
  · have hstart : nameStart c = true := (Bool.and_eq_true_iff.mp hvalid).1
    constructor
    · rintro rfl
      exact absurd hstart (by decide)
    · rintro rfl
      exact absurd hstart (by decide)

/-- What the header of a bare parameter reads. -/
theorem parameterHeader_bare (hname : BareName name) :
    parameterHeader (ascii "\"$" ++ name ++ ascii "\"") 1 (name.length + 2) =
      .ok ⟨name, false, false, none, false, name.length + 2, name.length + 2⟩ := by
  cases name with
  | nil => rcases hname with h | h <;> cases h
  | cons c rest =>
    obtain ⟨hbackslash, hbrace⟩ := bareName_head hname
    have hstop : (c :: rest).length + 2 = 3 + rest.length := by
      rw [List.length_cons]
      omega
    have hdollar := logical_of_get (show 1 < 3 + rest.length by omega) (raw_get_dollar (c :: rest))
      (by decide)
    have hfirst := logical_of_get (show 2 < 3 + rest.length by omega)
      (raw_get_name (c :: rest) (Nat.succ_pos _)) hbackslash
    have hend := logical_at_end (ascii "\"$" ++ (c :: rest) ++ ascii "\"") (3 + rest.length)
    have hnotBraced : (some c == some (byteOf '{')) = false := by simpa using hbrace
    rw [hstop]
    unfold parameterHeader
    simp only [hdollar, hfirst, hnotBraced, Bool.false_eq_true, if_false, Bool.false_and,
      parameterName_bare hname, hend]
    rw [if_neg (by omega)]
    rfl

theorem bareName_nulFree (hname : BareName name) : NulFree name := by
  intro hzero
  rcases hname with hat | hvalid
  · subst hat
    exact absurd hzero (by decide)
  · cases name with
    | nil => cases hzero
    | cons c rest =>
      obtain ⟨hstart, hrest⟩ := Bool.and_eq_true_iff.mp hvalid
      rcases List.mem_cons.mp hzero with rfl | hmem
      · exact absurd hstart (by decide)
      · exact absurd (List.all_eq_true.mp hrest 0 hmem) (by decide)

end Header

section Word

variable {F : Type} {word : Token} {name : Bytes}

section

variable (hword : QuotedParameter word name)
include hword

theorem QuotedParameter.raw_length : word.raw.length = name.length + 3 := by
  rw [hword.raw]
  simp [ascii]

theorem QuotedParameter.nulFree (hname : BareName name) : word.raw.contains 0 = false := by
  have hnul := bareName_nulFree hname
  rw [hword.raw]
  simp only [NulFree] at hnul
  simp [ascii, hnul]

/-- The spelling of the two fragments is that of their kinds. -/
theorem QuotedParameter.fragmentSyntax (hname : BareName name)
    (lexical : Decoder) (start finish start' finish' : Position) :
    Expand.fragmentSyntax lexical word.raw
        ⟨.quoted, .double, none, 0, name.length + 3, start, finish⟩ ∧
      Expand.fragmentSyntax lexical word.raw
        ⟨.parameter, .double, some 0, 1, name.length + 2, start', finish'⟩ := by
  rw [hword.raw]
  cases name with
  | nil => rcases hname with h | h <;> cases h
  | cons c rest =>
    obtain ⟨hbackslash, hbrace⟩ := bareName_head hname
    have hlast := raw_get_last (c :: rest)
    have hdollar := logical_of_get (show 1 < (c :: rest).length + 2 by simp)
      (raw_get_dollar (c :: rest)) (by decide)
    have hfirst := logical_of_get (show 2 < (c :: rest).length + 2 by simp)
      (raw_get_name (c :: rest) (Nat.succ_pos _)) hbackslash
    constructor
    · have hstop : (c :: rest).length + 3 - 1 = (c :: rest).length + 2 := rfl
      simp only [Expand.fragmentSyntax, hstop, hlast, beq_self_eq_true, Bool.and_true]
      rfl
    · have hbrace' : (c == byteOf '{') = false := by simpa using hbrace
      have hbyte : (nameByte c || specialParameter c) = true := by
        rcases hname with hat | hvalid
        · cases hat
          rfl
        · have hstart : nameStart c = true := (Bool.and_eq_true_iff.mp hvalid).1
          rw [nameByte, hstart, Bool.true_or, Bool.true_or]
      simp only [Expand.fragmentSyntax, hdollar, hfirst, hbrace', hbyte, beq_self_eq_true,
        Bool.true_and, Bool.false_eq_true, if_false]

/-- The fragments pass validation, and enclose one another. -/
theorem QuotedParameter.prepare (hname : BareName name) (env : ExpandEnv) :
    ∃ prepared, Expand.prepare env word = .ok prepared ∧
      prepared.next 0 = 2 ∧ prepared.next 1 = 2 := by
  obtain ⟨start, finish, start', finish', hfragments⟩ := hword.fragments
  have hlength := hword.raw_length
  have hnul := hword.nulFree hname
  have hne : name ≠ [] := by
    rintro rfl
    rcases hname with h | h <;> cases h
  obtain ⟨houter, hinner⟩ := hword.fragmentSyntax hname env.lexical start finish start' finish'
  have hloop : prepareLoop env.lexical word word.fragments 0 {} =
      .ok ⟨[1, 0], 1, fun _ => 0⟩ := by
    simp [hfragments, prepareLoop, Nesting.close, structured, spelled, hlength, houter, hinner,
      hne]
  have hdecode : decodeLoop env word word.fragments 0 (fun _ => []) = .ok fun _ => [] := by
    simp [hfragments, decodeLoop]
  refine ⟨⟨fun j => if j ∈ [1, 0] then word.fragments.length else 0, fun _ => []⟩, ?_, ?_, ?_⟩
  · simp only [Expand.prepare, hword.kind, hnul, hloop, hdecode]
    rfl
  · simp [hfragments]
  · simp [hfragments]

end

/-- Each fragment has the other one below it, or none. -/
theorem children_of_next (hcount : word.fragments.length = 2) {next : ℕ → ℕ} (h₀ : next 0 = 2) :
    children word next none = [0] ∧ children word next (some 0) = [1] := by
  simp [children, siblingsFrom, hcount, h₀]

/-- What the one parameter of the word appends to the output. -/
def parameterOutput (env : ExpandEnv) (s : State F) (name value : Bytes) (out : Expansion) :
    Expansion :=
  if name = ascii "@" then positional env s out false .double
  else scalar out value .double .parameter

/-- The body of `parameter` on the parameter of the word. -/
theorem parameterBody_bare (env : ExpandEnv) (ranger : Ranger F) (f : Fragment)
    (hquote : f.quote = .double) {s : State F} {value : Bytes}
    (hvalue : name = ascii "@" ∨ validName name ∧ (s.getVariable name).2.value = some value)
    (stop : ℕ) (error : ExpandError) (out : Expansion) :
    parameterBody env word ranger 1 f ⟨name, false, false, none, false, stop, stop⟩ ⟨s, error⟩ out =
      ⟨.ok, ⟨s, error⟩, parameterOutput env s name value out⟩ := by
  rcases hvalue with rfl | ⟨hvalid, hvalue⟩
  · simp only [parameterBody, parameterOutput, hquote]
    rfl
  · cases name with
    | nil => cases hvalid
    | cons c rest =>
      have hstart : nameStart c = true := (Bool.and_eq_true_iff.mp hvalid).1
      have hat : (c :: rest) ≠ ascii "@" := by
        intro h
        cases h
        exact absurd hstart (by decide)
      have hstar : (c :: rest) ≠ ascii "*" := by
        intro h
        cases h
        exact absurd hstart (by decide)
      have hok : (s.getVariable (c :: rest)).1 = .ok := by
        simp only [State.getVariable, hvalid, Bool.not_true, Bool.false_eq_true, if_false]
        split <;> rfl
      have hget : parameterValue s (c :: rest) = .ok (some value) := by
        simp only [parameterValue, if_pos hstart]
        generalize hview : s.getVariable (c :: rest) = view at hok hvalue ⊢
        obtain ⟨result, view⟩ := view
        cases hok
        exact congrArg _ hvalue
      have hlist : ((c :: rest) == ascii "@" || (c :: rest) == ascii "*") = false := by
        simp [hat, hstar]
      simp only [parameterBody, hlist, hget, hquote, parameterOutput, hat, if_false,
        Bool.false_eq_true, Option.isNone_some, Bool.false_and, Option.getD_some]

/-- A fragment with structure that lies inside the range is expanded whole. -/
theorem rangeLoop_whole {env : ExpandEnv} {prepared : Prepared} {options : ExpandOptions F}
    {ranger : Ranger F} {parent : Option ℕ} {stop : ℕ} {origin : ExpandOrigin} {tilde : Tilde}
    {i : ℕ} {rest : List ℕ} {cursor : ℕ} {tildeOk : Bool} {work : Work F} {out : Expansion}
    {f : Fragment} (hf : word.fragments[i]? = some f) (htext : f.kind ≠ .text)
    (hcontinuation : f.kind ≠ .continuation) (hcursor : cursor ≤ f.begin) (hstop : f.stop ≤ stop)
    (hlt : f.begin < f.stop) :
    rangeLoop env word prepared options ranger parent stop origin tilde (i :: rest) cursor tildeOk
        work out =
      (wholeFragment env word prepared options ranger i f origin work out).andThen fun work out =>
        rangeLoop env word prepared options ranger parent stop origin tilde rest f.stop false work
          out := by
  have hinside : (decide (f.stop ≤ cursor) || decide (stop ≤ f.begin)) = false := by
    simp only [Bool.or_eq_false_iff, decide_eq_false_iff_not]
    omega
  rw [rangeLoop]
  simp only [hf, hinside, Bool.false_eq_true, if_false, max_eq_right hcursor, min_eq_left hstop]
  cases hkind : f.kind
  case text => exact absurd hkind htext
  case continuation => exact absurd hkind hcontinuation
  all_goals simp

/-- With room for two nested ranges the word expands to its parameter. -/
theorem QuotedParameter.expandWord (hword : QuotedParameter word name) (env : ExpandEnv)
    {stack : ℕ} (hstack : 2 ≤ stack) {s : State F} (hsave : s.save = some s)
    (hvalue : name = ascii "@" ∨ validName name ∧ (s.getVariable name).2.value = some value)
    {options : ExpandOptions F} (hcontext : options.context = .argument) :
    CShell.expandWord env stack s word options =
      ⟨.ok, s, parameterOutput env s name value {}, {}⟩ := by
  have hname : BareName name := hvalue.imp_right And.left
  obtain ⟨prepared, hprepare, h₀, h₁⟩ := hword.prepare hname env
  obtain ⟨start, finish, start', finish', hfragments⟩ := hword.fragments
  obtain ⟨hroot, hchild⟩ := children_of_next (by rw [hfragments]; rfl) h₀
  obtain ⟨k, rfl⟩ := Nat.exists_eq_add_of_le' hstack
  have hheader : parameterHeader word.raw 1 (name.length + 2) =
      .ok ⟨name, false, false, none, false, name.length + 2, name.length + 2⟩ := by
    rw [hword.raw]
    exact parameterHeader_bare hname
  have hinner : Expand.range env word prepared options (k + 1) (some 0) 1 (name.length + 2) .literal
      .off { state := s } {} = ⟨.ok, { state := s }, parameterOutput env s name value {}⟩ := by
    have hf : word.fragments[1]? =
        some ⟨.parameter, .double, some 0, 1, name.length + 2, start', finish'⟩ := by
      rw [hfragments]
      rfl
    have hle : name.length + 2 ≤ name.length + 2 := Nat.le_refl _
    rw [Expand.range, hchild, rangeLoop_whole hf (by simp) (by simp) (Nat.le_refl 1) hle
      (show 1 < name.length + 2 by omega)]
    have hbody := @parameterBody_bare F word name env (Expand.range env word prepared options k)
      ⟨.parameter, .double, some 0, 1, name.length + 2, start', finish'⟩ rfl s value hvalue
      (name.length + 2) {} {}
    simp only [wholeFragment, parameter, hheader, hbody, Reply.reported, Reply.andThen, if_true,
      rangeLoop]
  have hcontent : ([1].any fun child =>
      (word.fragments[child]?.map Fragment.kind) != some .continuation) = true := by
    rw [hfragments]
    rfl
  have houter : Expand.range env word prepared options (k + 2) none 0 word.raw.length .literal
      .word { state := s } {} = ⟨.ok, { state := s }, parameterOutput env s name value {}⟩ := by
    have hf : word.fragments[0]? =
        some ⟨.quoted, .double, none, 0, name.length + 3, start, finish⟩ := by
      rw [hfragments]
      rfl
    have hle : name.length + 3 ≤ name.length + 3 := Nat.le_refl _
    rw [Expand.range, hroot, hword.raw_length, rangeLoop_whole hf (by simp) (by simp)
      (Nat.le_refl 0) hle (show 0 < name.length + 3 by omega)]
    have hquote : ¬Quote.double = Quote.dollarSingle := by decide
    simp only [wholeFragment, quotedRegion, hquote, if_false, hchild, hcontent, if_true]
    rw [show name.length + 3 - 1 = name.length + 2 from rfl, Nat.zero_add, hinner]
    simp only [Reply.andThen, if_true, rangeLoop]
  simp only [CShell.expandWord, hprepare, hsave, hcontext, rootTilde]
  rw [houter]
  rfl

/-- A quoted value is one span, in the field that is open or in a new one. -/
theorem scalar_newField_quoted (fields : List (List Span)) (value : Bytes) :
    scalar (newField { fields }) value .double .parameter =
      { fields := fields ++ [[quotedSpan value]] } := by
  simp [scalar, newField, append, quotedSpan]

/-- The step of `positional` that does not join. -/
def positionalStep (quote : Quote) (out : Expansion) (argument : Bytes × ℕ) : Expansion :=
  scalar (if argument.2 = 0 then out else newField out) argument.1 quote .parameter

theorem foldl_positionalStep (values : List Bytes) (fields : List (List Span)) (k : ℕ) :
    (values.zipIdx (k + 1)).foldl (positionalStep .double) { fields } =
      { fields := fields ++ values.map fun value => [quotedSpan value] } := by
  induction values generalizing fields k with
  | nil => simp
  | cons value values ih =>
    have hstep : positionalStep .double { fields } (value, k + 1) =
        { fields := fields ++ [[quotedSpan value]] } := scalar_newField_quoted fields value
    rw [List.zipIdx_cons, List.foldl_cons, hstep, ih, List.append_assoc]
    rfl

/-- The positional parameters, read by index. -/
theorem map_parameter {s : State F} (hcount : s.info.argumentCount = s.arguments.length) :
    ((List.range s.info.argumentCount).map fun i => (s.parameter (i + 1)).getD []) =
      s.arguments := by
  apply List.ext_getElem
  · simp [hcount]
  · intro i hi hi'
    have hle : ¬s.info.argumentCount < i + 1 := by omega
    have hread : s.parameter (i + 1) = some (s.arguments[i]) := by
      unfold State.parameter
      rw [if_neg hle]
      exact List.getElem?_eq_getElem hi'
    rw [List.getElem_map, List.getElem_range, hread]
    rfl

/-- In argument context `"$@"` makes one field of each parameter. -/
theorem positional_quoted (env : ExpandEnv) {s : State F}
    (hcount : s.info.argumentCount = s.arguments.length) :
    positional env s {} false .double =
      { fields := s.arguments.map fun value => [quotedSpan value] } := by
  have hfold : positional env s {} false .double =
      s.arguments.zipIdx.foldl (positionalStep .double) {} := by
    simp only [positional, map_parameter hcount]
    rfl
  rw [hfold]
  cases s.arguments with
  | nil => rfl
  | cons value values =>
    rw [List.zipIdx_cons, List.foldl_cons]
    exact foldl_positionalStep values [[quotedSpan value]] 0

end Word

end Expand

/-- **Quoted data is inert.**  In any encoding whose multibyte characters contain no
ASCII byte, for every state, whatever its `IFS` and its options, and for every
file system: `"$@"` expands to exactly the positional parameters, `"$v"` to
exactly the value of `v`, and neither looks at the file system.  The values are C
strings, and the native stack has room for two nested ranges. -/
theorem quotedParameter_inert {F : Type} (env : ExpandEnv) (hsafe : env.current.AsciiSafe)
    (stack : ℕ) (hstack : 2 ≤ stack) (s : State F) (hs : s.Reachable) (options : ExpandOptions F)
    (hcontext : options.context = .argument) :
    (∀ word, Expand.QuotedParameter word (ascii "@") →
      (∀ argument ∈ s.arguments, NulFree argument) →
      let r := expandWord env stack s word options
      r.result = .ok ∧ r.state = s ∧
        expandFields env r.state r.out = (.ok, { fields := s.arguments, log := [] }, {})) ∧
    (∀ word name value, Expand.QuotedParameter word name → validName name →
      (s.getVariable name).2.value = some value → NulFree value →
      let r := expandWord env stack s word options
      r.result = .ok ∧ r.state = s ∧
        expandFields env r.state r.out = (.ok, { fields := [value], log := [] }, {})) := by
  constructor
  · intro word hword hnul
    have hvalue : ascii "@" = ascii "@" ∨
        validName (ascii "@") ∧ (s.getVariable (ascii "@")).2.value = some [] := Or.inl rfl
    have hexpand := hword.expandWord env hstack hs.save_eq hvalue hcontext
    have hout : Expand.parameterOutput env s (ascii "@") [] {} =
        { fields := s.arguments.map fun value => [quotedSpan value] } :=
      Expand.positional_quoted env hs.wellFormed.argument_count
    rw [hexpand, hout]
    exact ⟨rfl, rfl, expandFields_quoted hsafe s hnul⟩
  · intro word name value hword hname hvalue hnul
    have hexpand := hword.expandWord env hstack hs.save_eq (Or.inr ⟨hname, hvalue⟩) hcontext
    have hne : name ≠ ascii "@" := by
      rintro rfl
      exact absurd hname (by decide)
    have hout : Expand.parameterOutput env s name value {} =
        { fields := [value].map fun value => [quotedSpan value] } := by
      rw [Expand.parameterOutput, if_neg hne]
      rfl
    rw [hexpand, hout]
    exact ⟨rfl, rfl, expandFields_quoted hsafe s (by simpa using hnul)⟩

/-- A shell with the parameters `*` and an empty one. -/
theorem quotedParameter_inert_star :
    let s : State Unit := State.create [] [ascii "*", []] [] 1 .stdin 0 false
    let word : Token := {
      kind := .word
      raw := ascii "\"$@\""
      fragments := [⟨.quoted, .double, none, 0, 4, {}, {}⟩, ⟨.parameter, .double, some 0, 1, 3, {}, {}⟩] }
    let r := expandWord .bare 2 s word {}
    r.result = .ok ∧ r.state = s ∧
      expandFields .bare r.state r.out = (.ok, { fields := [ascii "*", []], log := [] }, {}) :=
  (quotedParameter_inert .bare Decoder.posix_asciiSafe 2 (Nat.le_refl 2) _ (.create ..) {} rfl).1 _
    ⟨rfl, rfl, {}, {}, {}, {}, rfl⟩ (by decide)

end CShell
