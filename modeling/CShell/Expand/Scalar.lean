import CShell.Expand.Assigning

/-!
# Scalar contexts

An assignment, a redirection, a pattern and a here-document want one field.  New fields
are opened for positional parameters only, and only in an output for arguments; the
context is stored in the output, so that it holds at every depth of the nesting.  The
splitter looks for delimiters in arguments only, and emits one candidate a field.

## Main definitions

* `State.CStrings` — no value and no argument of the state has a NUL.

## Main results

* `Expand.Grows.length_le_one` — an output for one field keeps at most one.
* `expandFields_scalar` — the splitter makes one field of each.
* `expandWord_scalar` — **scalar contexts give at most one field.**

## References

`src/expand.c`, `src/fields.c`, `src/prepare.c`.
-/

namespace CShell

open Expand List

variable {F : Type}

/-! ### The expander -/

namespace Expand

variable {q : Bytes → Prop} {out out' : Expansion}

theorem Grows.context (h : Grows q out out') : out'.context = out.context := by
  induction h with
  | refl => rfl
  | append _ _ _ _ _ ih => exact ih
  | newField _ _ ih => exact ih

theorem length_append_le_one {out : Expansion} (h : out.fields.length ≤ 1) (bytes : Bytes) (quote : Quote)
    (origin : ExpandOrigin) (keep : Bool) : (append out bytes quote origin keep).fields.length ≤ 1 := by
  unfold append
  dsimp only
  rw [length_append, length_dropLast, length_singleton]
  split
  · simp
  · omega

/-- **An output for one field keeps at most one.** -/
theorem Grows.length_le_one (h : Grows q out out') (hcontext : out.context ≠ .argument)
    (hout : out.fields.length ≤ 1) : out'.fields.length ≤ 1 := by
  induction h with
  | refl => exact hout
  | append _ quote origin _ _ ih => exact length_append_le_one ih _ quote origin _
  | newField h' hargument _ => exact absurd (h'.context.symm.trans hargument) hcontext

/-- Spans that the splitter takes. -/
theorem Grows.wellFormed (h : Grows NulFree out out')
    (hout : ∀ field ∈ out.fields, ∀ span ∈ field, span.wellFormed) :
    ∀ field ∈ out'.fields, ∀ span ∈ field, span.wellFormed := by
  induction h with
  | refl => exact hout
  | append _ quote origin hbytes hkeep ih =>
    intro field hfield span hspan
    rcases mem_fields_append hfield hspan with ⟨old, hold, hin⟩ | ⟨htext, hquote, hkeepEmpty, hsplit⟩
    · exact ih old hold span hin
    · have hnul : span.text.contains 0 = false := by
        rw [htext]
        simpa [NulFree] using hbytes
      have hempty : (span.keepEmpty && span.quote == .none) = false := by
        rw [hquote, hkeepEmpty, Bool.and_eq_false_iff, beq_eq_false_iff_ne]
        exact (Bool.eq_false_or_eq_true _).symm.imp_right hkeep
      have hplain : (span.split && span.quote != .none) = false := by
        rw [hquote, Bool.and_eq_false_iff, bne_eq_false_iff_eq]
        exact (Bool.eq_false_or_eq_true _).symm.imp_right hsplit
      unfold Span.wellFormed
      rw [hnul, hempty, hplain]
      rfl
  | newField _ _ ih =>
    intro field hfield span hspan
    rcases mem_append.mp hfield with hold | hnew
    · exact ih field hold span hspan
    · rw [mem_singleton.mp hnew] at hspan
      cases hspan

end Expand

/-! ### The splitter -/

section

variable {env : ExpandEnv} {context : ExpandContext} {ifs : Bytes} {options : UInt32}

theorem emit_scalar (hcontext : context ≠ .argument) (options : UInt32) (cells : List Cell) (out : Output) :
    ∃ text, emit env context options cells out = (.ok, out.append text) := by
  cases context with
  | argument => exact absurd rfl hcontext
  | assignment => exact ⟨_, rfl⟩
  | redirection => exact ⟨_, rfl⟩
  | pattern => exact ⟨_, rfl⟩
  | heredoc => exact ⟨_, rfl⟩

/-- Without delimiters one candidate is emitted, at the end. -/
theorem finishLoop_scalar (hcontext : context ≠ .argument) (spans : List Span) (offset : ℕ) (cells : List Cell)
    (out : Output) :
    ∃ text, finishLoop env context ifs options spans offset cells true out = (.ok, out.append text) := by
  generalize hkeep : true = keep
  fun_induction finishLoop env context ifs options spans offset cells keep out with
  | case1 spans offset cells keep out offset' hcur _ => exact emit_scalar hcontext options cells out
  | case2 spans offset cells keep out offset' hcur hnot => exact absurd (by simp [← hkeep]) hnot
  | case3 spans offset cells keep out span rest offset' hcur hempty ih => exact ih rfl
  | case4 spans offset cells keep out span rest offset' hcur hempty hd width ih => exact ih hkeep
  | case5 spans offset cells keep out span rest offset' hcur hempty n white hd =>
    rw [dif_neg hcontext] at hd
    cases hd
  | case6 spans offset cells keep out span rest offset' hcur hempty n white hd =>
    rw [dif_neg hcontext] at hd
    cases hd

/-- One field makes one. -/
theorem finishField_scalar (hcontext : context ≠ .argument) (field : List Span) (out : Output) :
    (finishField env context ifs options field out).1 = .ok ↔ ∀ span ∈ field, span.wellFormed := by
  unfold finishField
  rw [← all_eq_true]
  have hkeep : (context != .argument) = true := by simpa using hcontext
  obtain ⟨text, hloop⟩ := @finishLoop_scalar env context ifs options hcontext field 0 [] out
  split
  · next hvalid => simp [hkeep, hloop, hvalid]
  · next hvalid => simp [hvalid]

theorem length_finishField (hcontext : context ≠ .argument) {field : List Span} {out out' : Output}
    (h : finishField env context ifs options field out = (.ok, out')) :
    out'.fields.length = out.fields.length + 1 := by
  have hkeep : (context != .argument) = true := by simpa using hcontext
  obtain ⟨text, hloop⟩ := @finishLoop_scalar env context ifs options hcontext field 0 [] out
  unfold finishField at h
  split at h
  · rw [hkeep, hloop] at h
    cases h
    simp [Output.append]
  · cases h

theorem finishFields_scalar (hcontext : context ≠ .argument) (fields : List (List Span)) (out : Output) :
    ((finishFields env context ifs options fields out).1 = .ok →
        (finishFields env context ifs options fields out).2.fields.length = out.fields.length + fields.length) ∧
      ((∀ field ∈ fields, ∀ span ∈ field, span.wellFormed) →
        (finishFields env context ifs options fields out).1 = .ok) := by
  induction fields generalizing out with
  | nil => exact ⟨fun _ => rfl, fun _ => rfl⟩
  | cons field fields ih =>
    have hok := @finishField_scalar env context ifs options hcontext field out
    unfold finishFields
    generalize hfield : finishField env context ifs options field out = r at hok
    obtain ⟨result, out₁⟩ := r
    dsimp only at hok
    by_cases hresult : result = .ok
    · subst hresult
      have hlength := length_finishField hcontext hfield
      refine ⟨fun hdone => ?_, fun hall => (ih out₁).2 fun f hf => hall f (mem_cons_of_mem field hf)⟩
      rw [(ih out₁).1 hdone, hlength, length_cons]
      omega
    · refine ⟨fun hdone => ?_, fun hall => absurd (hok.mpr (hall field mem_cons_self)) hresult⟩
      split at hdone
      · next heq =>
        cases heq
        exact absurd rfl hresult
      · exact absurd hdone hresult

/-- **The splitter makes one field of each.** -/
theorem expandFields_scalar (s : State F) {expansion : Expansion} (hcontext : expansion.context ≠ .argument) :
    ((expandFields env s expansion).1 = .ok →
        (expandFields env s expansion).2.1.fields.length = expansion.fields.length) ∧
      ((∀ field ∈ expansion.fields, ∀ span ∈ field, span.wellFormed) →
        (expandFields env s expansion).1 = .ok) := by
  obtain ⟨hlength, hok⟩ := @finishFields_scalar env expansion.context (ifsOf s) s.info.options hcontext
    expansion.fields {}
  unfold expandFields
  generalize finishFields env expansion.context (ifsOf s) s.info.options expansion.fields {} = r at hlength hok
  obtain ⟨result, out⟩ := r
  dsimp only at hlength hok
  by_cases hresult : result = .ok
  · subst hresult
    exact ⟨fun _ => by simpa using hlength rfl, fun _ => rfl⟩
  · refine ⟨fun hdone => ?_, fun hall => absurd (hok hall) hresult⟩
    split at hdone
    · next heq =>
      cases heq
      exact absurd rfl hresult
    · next heq =>
      cases heq
      exact absurd hdone hresult

end

/-! ### Texts without NUL -/

namespace State

/-- No value and no argument of the state has a NUL. -/
structure CStrings (s : State F) : Prop where
  value : ∀ v ∈ s.vars, ∀ value, v.value = some value → NulFree value
  argument : ∀ argument ∈ s.arguments, NulFree argument
  arg0 : NulFree s.arg0

theorem mem_modifyVariable {name : Bytes} {f : Variable → Variable} {vars : List Variable} {v : Variable}
    (h : v ∈ modifyVariable name f vars) : v ∈ vars ∨ ∃ old ∈ vars, v = f old := by
  induction vars with
  | nil => cases h
  | cons old vars ih =>
    unfold modifyVariable at h
    split at h
    · rcases mem_cons.mp h with rfl | h
      · exact .inr ⟨old, mem_cons_self, rfl⟩
      · exact .inl (mem_cons_of_mem old h)
    · rcases mem_cons.mp h with rfl | h
      · exact .inl mem_cons_self
      · refine (ih h).imp (mem_cons_of_mem old) ?_
        rintro ⟨u, hu, rfl⟩
        exact ⟨u, mem_cons_of_mem old hu, rfl⟩

theorem CStrings.setVariable {s : State F} (h : s.CStrings) (name : Bytes) {value : Bytes} (hvalue : NulFree value) :
    (s.setVariable name value).2.CStrings := by
  have hassigned : ∀ vars : List Variable, (∀ v ∈ vars, ∀ value, v.value = some value → NulFree value) →
      (State.assigned { s with vars } name).CStrings := by
    intro vars hvars
    obtain ⟨hv, -, -, -, hargs, -, harg0, -⟩ := assigned_fields { s with vars } name
    exact ⟨by rw [hv]; exact hvars, by rw [hargs]; exact h.argument, by rw [harg0]; exact h.arg0⟩
  unfold State.setVariable
  split
  · exact h
  · split
    · split
      · exact h
      · refine hassigned _ ?_
        intro v hv text htext
        rcases mem_modifyVariable hv with hold | ⟨old, -, rfl⟩
        · exact h.value v hold text htext
        · cases htext
          exact hvalue
    · refine hassigned _ ?_
      intro v hv text htext
      rcases mem_cons.mp hv with rfl | hold
      · cases htext
        exact hvalue
      · exact h.value v hold text htext

theorem CStrings.updateAttributes {s : State F} (h : s.CStrings) (name : Bytes) (set clear : UInt32) :
    (s.updateAttributes name set clear).2.CStrings := by
  unfold State.updateAttributes
  split
  · exact h
  · split
    · split
      · exact h
      · refine ⟨?_, h.argument, h.arg0⟩
        intro v hv text htext
        rcases mem_modifyVariable hv with hold | ⟨old, hold, rfl⟩
        · exact h.value v hold text htext
        · exact h.value old hold text htext
    · dsimp only
      split
      · exact h
      · refine ⟨?_, h.argument, h.arg0⟩
        intro v hv text htext
        rcases mem_cons.mp hv with rfl | hold
        · cases htext
        · exact h.value v hold text htext

theorem CStrings.assignedFrom {s s' : State F} (h : s.CStrings) (hs : s.Reachable)
    (hassigned : s.AssignedFrom NulFree s') : s'.CStrings := by
  induction hassigned with
  | refl => exact h
  | set _ name hvalue ih => exact ih.setVariable name hvalue
  | mark _ name ih => exact ih.updateAttributes name _ _
  | copy hassigned hsave ih =>
    rw [(hassigned.assigned.reachable hs).save_eq] at hsave
    exact Option.some.inj hsave ▸ ih

end State

theorem mem_readDigits {base limit value : ℕ} {digitOf : UInt8 → Option ℕ} {text : Bytes} {byte : UInt8}
    (h : byte ∈ (readDigits base digitOf limit value text).2) : byte ∈ text := by
  fun_induction readDigits base digitOf limit value text with
  | case1 => exact h
  | case2 => exact h
  | case3 _ _ first rest _ _ ih => exact mem_cons_of_mem first (ih h)
  | case4 => exact h

/-- What follows an escape was there, and what is kept of it has no NUL. -/
theorem decodeEscape_parts (escaped : UInt8) (rest : Bytes) :
    NulFree (decodeEscape escaped rest).kept ∧ ∀ byte ∈ (decodeEscape escaped rest).rest, byte ∈ rest := by
  have hnone : NulFree [] := by simp [NulFree]
  have hliteral : NulFree [byteOf '\\'] := by decide
  unfold decodeEscape
  split
  · exact ⟨hnone, fun _ hmem => hmem⟩
  · split_ifs
    · exact ⟨hnone, fun _ hmem => hmem⟩
    · cases rest with
      | nil => exact ⟨hliteral, fun _ hmem => hmem⟩
      | cons operand rest' =>
        dsimp only
        split
        · exact ⟨hliteral, fun _ hmem => hmem⟩
        · split_ifs
          · exact ⟨hnone, fun _ hmem => mem_cons_of_mem operand hmem⟩
          · exact ⟨hnone, fun _ hmem => mem_cons_of_mem operand (mem_of_mem_tail hmem)⟩
          · exact ⟨hliteral, fun _ hmem => hmem⟩
    · dsimp only
      split
      · exact ⟨hnone, fun _ hmem => mem_readDigits hmem⟩
      · exact ⟨hliteral, fun _ hmem => hmem⟩
    · split
      · exact ⟨hnone, fun _ hmem => mem_readDigits hmem⟩
      · exact ⟨hliteral, fun _ hmem => hmem⟩

theorem nulFree_cons {byte : UInt8} {text : Bytes} : NulFree (byte :: text) ↔ 0 ≠ byte ∧ NulFree text := by
  simp only [NulFree, mem_cons, not_or]

theorem nulFree_append {a b : Bytes} : NulFree (a ++ b) ↔ NulFree a ∧ NulFree b := by
  simp only [NulFree, mem_append, not_or]

/-- What is decoded has no NUL: the text ends before the first one. -/
theorem nulFree_quoteDecodeLoop (lexical active : Decoder) (text : Bytes) (h : NulFree text) :
    ∀ value, quoteDecodeLoop lexical active text = some value → NulFree value := by
  have htake : ∀ {text : Bytes} (n : ℕ), NulFree text → NulFree (text.take n) :=
    fun _ htext hmem => htext (mem_of_mem_take hmem)
  have hdrop : ∀ {text : Bytes} (n : ℕ), NulFree text → NulFree (text.drop n) :=
    fun _ htext hmem => htext (mem_of_mem_drop hmem)
  fun_induction quoteDecodeLoop lexical active text with
  | case1 =>
    rintro value ⟨⟩
    exact h
  | case2 byte rest width _ ih =>
    -- a character of more than one byte
    intro value hvalue
    obtain ⟨tail, htail, rfl⟩ := Option.map_eq_some_iff.mp hvalue
    obtain ⟨hbyte, hrest⟩ := nulFree_cons.mp h
    exact nulFree_append.mpr ⟨nulFree_cons.mpr ⟨hbyte, htake _ hrest⟩, ih (hdrop _ hrest) tail htail⟩
  | case3 byte escaped rest' _ width _ _ _ ih =>
    -- a character of more than one byte behind a backslash
    intro value hvalue
    obtain ⟨tail, htail, rfl⟩ := Option.map_eq_some_iff.mp hvalue
    obtain ⟨hbyte, hrest⟩ := nulFree_cons.mp h
    obtain ⟨hescaped, hrest'⟩ := nulFree_cons.mp hrest
    exact nulFree_append.mpr ⟨nulFree_cons.mpr ⟨hbyte, nulFree_cons.mpr ⟨hescaped, htake _ hrest'⟩⟩, ih (hdrop _ hrest') tail htail⟩
  | case4 =>
    rintro value ⟨⟩
  | case5 =>
    -- a decoded NUL
    rintro value ⟨⟩
    simp [NulFree]
  | case6 byte escaped rest' _ _ _ escape _ hnul _ _ ih =>
    intro value hvalue
    obtain ⟨tail, htail, rfl⟩ := Option.map_eq_some_iff.mp hvalue
    obtain ⟨hkept, hrest⟩ := decodeEscape_parts escaped rest'
    have hfree : NulFree escape.rest := fun hmem => (nulFree_cons.mp (nulFree_cons.mp h).2).2 (hrest 0 hmem)
    refine nulFree_append.mpr ⟨hkept, nulFree_cons.mpr ⟨fun heq => hnul ?_, ih hfree tail htail⟩⟩
    exact beq_iff_eq.mpr heq.symm
  | case7 byte escaped rest' _ _ _ ih =>
    intro value hvalue
    obtain ⟨tail, htail, rfl⟩ := Option.map_eq_some_iff.mp hvalue
    exact nulFree_cons.mpr ⟨(nulFree_cons.mp h).1, ih (nulFree_cons.mp h).2 tail htail⟩
  | case8 byte =>
    rintro value ⟨⟩
    exact h

theorem nulFree_slice {raw : Bytes} (h : NulFree raw) (begin stop : ℕ) : NulFree (slice raw begin stop) :=
  fun hmem => h (mem_of_mem_drop (mem_of_mem_take hmem))

theorem nulFree_decodeFragment {env : ExpandEnv} {word : Token} {f : Fragment} {text : Bytes}
    (hraw : NulFree word.raw) (h : decodeFragment env word f = .ok text) : NulFree text := by
  unfold decodeFragment at h
  dsimp only at h
  split at h
  · cases h
  · split at h
    · cases h
    · next value hdecode =>
      cases h
      unfold quoteDecode at hdecode
      split at hdecode
      · cases hdecode
      · exact nulFree_quoteDecodeLoop _ _ _ (nulFree_slice hraw _ _) text hdecode

/-- The decoded regions of a word have no NUL. -/
theorem nulFree_decodeLoop {env : ExpandEnv} {word : Token} (hraw : NulFree word.raw) (fs : List Fragment)
    (i : ℕ) (decoded decoded' : ℕ → Bytes) (hdecoded : ∀ j, NulFree (decoded j))
    (h : decodeLoop env word fs i decoded = .ok decoded') : ∀ j, NulFree (decoded' j) := by
  induction fs generalizing i decoded with
  | nil =>
    cases h
    exact hdecoded
  | cons f fs ih =>
    unfold decodeLoop at h
    split at h
    · split at h
      · cases h
      · next text hdecode =>
        refine ih (i + 1) _ ?_ h
        intro j
        split
        · exact nulFree_decodeFragment hraw hdecode
        · exact hdecoded j
    · exact ih (i + 1) decoded hdecoded h

theorem nulFree_prepare {env : ExpandEnv} {word : Token} {prepared : Prepared}
    (h : prepare env word = .ok prepared) : NulFree word.raw ∧ ∀ i, NulFree (prepared.decoded i) := by
  unfold prepare at h
  split at h
  · cases h
  · next hvalid =>
    have hraw : NulFree word.raw := by
      rw [Bool.or_eq_true, not_or] at hvalid
      simpa [NulFree] using hvalid.2
    split at h
    · cases h
    · dsimp only at h
      split at h
      · cases h
      · next decoded hdecode =>
        cases h
        exact ⟨hraw, nulFree_decodeLoop hraw _ 0 _ _ (fun _ => by simp [NulFree]) hdecode⟩

namespace State

variable {s : State F}

theorem CStrings.getVariable (h : s.CStrings) {name value : Bytes}
    (hvalue : (s.getVariable name).2.value = some value) : NulFree value := by
  unfold State.getVariable at hvalue
  split at hvalue
  · cases hvalue
  · split at hvalue
    · next v hfind => exact h.value v (mem_of_find?_eq_some hfind) value hvalue
    · cases hvalue

theorem CStrings.parameter (h : s.CStrings) {index : ℕ} {value : Bytes}
    (hvalue : s.parameter index = some value) : NulFree value := by
  unfold State.parameter at hvalue
  split at hvalue
  · cases hvalue
  · split at hvalue
    · cases hvalue
      exact h.arg0
    · exact h.argument value (mem_of_getElem? hvalue)

end State

/-! ### Words -/

/-- The texts of an expansion are C strings. -/
theorem supplies_cstrings {env : ExpandEnv} {word : Token} {prepared : Prepared}
    (h : prepare env word = .ok prepared) (hhome : ∀ name home, env.getpwnam name = some home → NulFree home) :
    Supplies env word prepared NulFree fun s : State F => s.Reachable ∧ s.CStrings := by
  obtain ⟨hraw, hdecoded⟩ := nulFree_prepare h
  refine ⟨fun _ htext => htext, fun _ _ htext hsub hmem => htext (hsub 0 hmem),
    fun _ _ ha hb => nulFree_append.mpr ⟨ha, hb⟩, hraw, hdecoded, hhome, ?_, ?_, ?_⟩
  · exact fun s name value hs hvalue => hs.2.getVariable hvalue
  · exact fun s index value hs hvalue => hs.2.parameter hvalue
  · intro s s' hs hassigned
    exact ⟨hassigned.assigned.reachable hs.1, hs.2.assignedFrom hs.1 hassigned⟩

section

variable {env : ExpandEnv} {word : Token} {options : ExpandOptions F} {stack : ℕ} {s : State F}

/-- The output of a word: nothing behind a failure, else what `range` adds to an empty
output for the context. -/
theorem expandWord_out (env : ExpandEnv) (stack : ℕ) (s : State F) (word : Token) (options : ExpandOptions F) :
    (expandWord env stack s word options).result ≠ .ok ∧ (expandWord env stack s word options).out = {} ∨
      ∃ prepared, prepare env word = .ok prepared ∧
        (range env word prepared options stack none 0 word.raw.length .literal (rootTilde options.context)
          { state := s } { context := options.context }).result = .ok ∧
        (expandWord env stack s word options).out =
          (range env word prepared options stack none 0 word.raw.length .literal (rootTilde options.context)
            { state := s } { context := options.context }).out := by
  unfold expandWord
  split
  · exact .inl ⟨by simp, rfl⟩
  · exact .inl ⟨by simp, rfl⟩
  · next prepared hprepare =>
    split
    · exact .inl ⟨by simp, rfl⟩
    · dsimp only
      split
      · next hok => exact .inr ⟨prepared, hprepare, hok, rfl⟩
      · next hfailed => exact .inl ⟨hfailed, rfl⟩

theorem length_expandWord (hcontext : options.context ≠ .argument) :
    (expandWord env stack s word options).out.fields.length ≤ 1 := by
  rcases expandWord_out env stack s word options with ⟨-, hout⟩ | ⟨prepared, -, hok, hout⟩
  · rw [hout]
    exact Nat.zero_le 1
  · rw [hout]
    have hgrows := (range_after (supplies_any env word prepared) stack none 0 word.raw.length .literal
      (rootTilde options.context) { state := s } { context := options.context } trivial).out hok
    exact hgrows.length_le_one hcontext (Nat.zero_le 1)

theorem context_expandWord (h : (expandWord env stack s word options).result = .ok) :
    (expandWord env stack s word options).out.context = options.context := by
  rcases expandWord_out env stack s word options with ⟨hfailed, -⟩ | ⟨prepared, -, hok, hout⟩
  · exact absurd h hfailed
  · rw [hout]
    exact ((range_after (supplies_any env word prepared) stack none 0 word.raw.length .literal
      (rootTilde options.context) { state := s } { context := options.context } trivial).out hok).context

/-- The splitter takes the output of a word. -/
theorem expandWord_wellFormed (hhome : ∀ name home, env.getpwnam name = some home → NulFree home)
    (hs : s.Reachable) (hstrings : s.CStrings) :
    ∀ field ∈ (expandWord env stack s word options).out.fields, ∀ span ∈ field, span.wellFormed := by
  rcases expandWord_out env stack s word options with ⟨-, hout⟩ | ⟨prepared, hprepare, hok, hout⟩
  · rw [hout]
    intro field hfield
    cases hfield
  · rw [hout]
    have hgrows := (range_after (supplies_cstrings hprepare hhome) stack none 0 word.raw.length .literal
      (rootTilde options.context) { state := s } { context := options.context } ⟨hs, hstrings⟩).out hok
    exact hgrows.wellFormed fun field hfield => by cases hfield

/-- The fields of a word in a scalar context: at most one, whatever its value. -/
theorem length_prepareFields (substitute : Substitute F) (token : Token) (offset : ℕ) {mode : ExpandContext}
    (hmode : mode ≠ .argument) {fields : List Bytes}
    (h : (prepareFields env stack substitute s token offset mode).1 = .ok fields) : fields.length ≤ 1 := by
  unfold prepareFields at h
  split at h
  · cases h
  · dsimp only at h
    split at h
    · cases h
    · generalize (if offset = 0 then token else cutWord token offset) = word at h
      generalize hoptions : ({ context := mode, substitute := some substitute } : ExpandOptions F) = options at h
      have hcontext : options.context ≠ .argument := by
        rw [← hoptions]
        exact hmode
      have hone := @length_expandWord F env word options stack s hcontext
      split at h
      · next hok =>
        have hlength := (@expandFields_scalar F env (expandWord env stack s word options).state
          (expandWord env stack s word options).out ((context_expandWord hok).symm ▸ hcontext)).1
        split at h
        · next out error heq =>
          cases h
          rw [heq] at hlength
          exact (hlength rfl).trans_le hone
        · cases h
      · cases h

/-- A failed preparation does not complain about the number of fields. -/
theorem prepareFields_error (substitute : Substitute F) (token : Token) (offset : ℕ) (mode : ExpandContext) :
    (prepareFields env stack substitute s token offset mode).1 ≠
      .error (.make "expansion requires one field" 0) := by
  have hmessage : ∀ message : String, ascii message ≠ ascii "expansion requires one field" →
      ∀ number detail position,
        ({ PrepareError.make message number with detail, position } : PrepareError) ≠
          .make "expansion requires one field" 0 := by
    intro message hne number detail position heq
    exact hne (congrArg (fun e : PrepareError => e.message) heq)
  unfold prepareFields
  split
  · intro h
    exact absurd (congrArg (fun e : PrepareError => e.message) (Except.error.inj h)) (by decide)
  · dsimp only
    split
    · intro h
      exact absurd (congrArg (fun e : PrepareError => e.message) (Except.error.inj h)) (by decide)
    · generalize (if offset = 0 then token else cutWord token offset) = word
      split
      · split
        · intro h
          cases h
        · intro h
          exact hmessage _ (by decide) _ _ _ (Except.error.inj h)
      · intro h
        exact hmessage _ (by decide) _ _ _ (Except.error.inj h)

/-- **Scalar contexts give at most one field.**  The splitter makes one field of each
field that it is given, and takes whatever is made of C strings; the two complaints about
more than one are never made. -/
theorem expandWord_scalar (hcontext : options.context ≠ .argument) :
    (expandWord env stack s word options).out.fields.length ≤ 1 ∧
      ((expandWord env stack s word options).result = .ok → ∀ s' : State F,
        ((expandFields env s' (expandWord env stack s word options).out).1 = .ok →
          (expandFields env s' (expandWord env stack s word options).out).2.1.fields.length =
            (expandWord env stack s word options).out.fields.length) ∧
        (s.Reachable → s.CStrings → (∀ name home, env.getpwnam name = some home → NulFree home) →
          (expandFields env s' (expandWord env stack s word options).out).1 = .ok)) ∧
      (∀ substitute token offset,
        (prepareScalar env stack substitute s token offset options.context).1 ≠
          .error (.make "expansion requires one field" 0)) ∧
      ∀ (prepared : Prepared) (depth index : ℕ) (begin stop : ℕ) (work : Work F),
        let r := range env word prepared options depth (some index) begin stop .parameter .word work
          { context := .pattern }
        r.result = .ok → (expandFields env r.work.state r.out).1 = .ok →
          (expandFields env r.work.state r.out).2.1.fields.length ≤ 1 := by
  refine ⟨length_expandWord hcontext, ?_, ?_, ?_⟩
  · intro hok s'
    have hout := (context_expandWord hok).symm ▸ hcontext
    obtain ⟨hlength, htaken⟩ := @expandFields_scalar F env s' (expandWord env stack s word options).out hout
    exact ⟨hlength, fun hs hstrings hhome => htaken (expandWord_wellFormed hhome hs hstrings)⟩
  · intro substitute token offset
    have herror := @prepareFields_error F env stack s substitute token offset options.context
    have hlength := @length_prepareFields F env stack s substitute token offset options.context hcontext
    unfold prepareScalar
    split
    · next e _ heq =>
      rw [heq] at herror
      intro h
      exact herror (congrArg Except.error (Except.error.inj h))
    · intro h
      cases h
    · intro h
      cases h
    · next fields _ hnil hone heq =>
      -- more than one field
      have hfew := hlength (congrArg Prod.fst heq)
      match fields, hfew with
      | [], _ => exact (hnil rfl).elim
      | [value], _ => exact (hone value rfl).elim
  · intro prepared depth index begin stop work r hok hfields
    have hgrows := (range_after (supplies_any env word prepared) depth (some index) begin stop .parameter .word
      work { context := .pattern } trivial).out hok
    have hpattern : r.out.context ≠ .argument := by
      rw [hgrows.context]
      decide
    rw [(@expandFields_scalar F env r.work.state r.out hpattern).1 hfields]
    exact hgrows.length_le_one (by decide) (Nat.zero_le 1)

/-- A shell with two arguments. -/
def twoArguments : State Unit := .create (ascii "sh") [ascii "a", ascii "b"] [] 1 .stdin 0 false

/-- The word `$@`. -/
def allArguments : Token :=
  { kind := .word, raw := ascii "$@", fragments := [{ kind := .parameter, quote := .none, parent := none, begin := 0, stop := 2 }] }

theorem expandWord_scalar_arguments :
    (expandWord .bare 2 twoArguments allArguments { context := .assignment }).out.fields.length ≤ 1 ∧
      (expandFields .bare twoArguments
        (expandWord .bare 2 twoArguments allArguments { context := .assignment }).out).1 = .ok := by
  obtain ⟨hone, hfields, -⟩ := @expandWord_scalar Unit .bare allArguments { context := .assignment } 2
    twoArguments (by decide)
  refine ⟨hone, (hfields (by decide +kernel) twoArguments).2 (.create _ _ _ _ _ _ _) ?_ ?_⟩
  · exact ⟨by decide +kernel, by decide, by decide⟩
  · intro name home h
    cases h

end

end CShell
