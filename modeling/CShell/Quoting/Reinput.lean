import CShell.Quoting.Expanded

/-!
# The printers and the reader

The last step of re-reading a printed word is the splitter.  Nothing of the field is
split, so that one candidate with all its bytes is emitted; it is left alone unless
the pattern encoder and the wildcard detector disagree about it.  The encoder puts a
backslash before a quoted wildcard, and an encoding in which a backslash can be the
second byte of a character lets the byte before it take the backslash away.

## Main definitions

* `Hidden` — the detector finds no wildcard in the encoded value.
* `Rereads` — the printed word is one token and expands to the field.

## Main results

* `rereads_iff` — **a printed value is read back on every file system if and only if
  `noglob` is on or the value is hidden.**
* `hidden_of_asciiSafe` — in the C locale and in UTF-8 every value is.

## References

`src/fields.c`, `src/pathname.c`.
-/

namespace CShell
namespace Quoting

open Expand List

variable {F : Type} {env : ExpandEnv}

/-! ### Spans that are not split -/

/-- The cells of a span. -/
def allCells (span : Span) : List Cell := span.cells 0 span.text.length

theorem cells_add (span : Span) (offset m n : ℕ) :
    span.cells offset m ++ span.cells (offset + m) n = span.cells offset (m + n) := by
  simp only [Span.cells, ← map_append, take_add, drop_drop]

variable {context : ExpandContext} {d : Decoder}

/-- The loop depends on the span the cursor stands at. -/
theorem finishLoop_congr {ifs : Bytes} {options : UInt32}
    {spans spans' : List Span} {offset offset' : ℕ}
    (h : current spans offset = current spans' offset') (cells : List Cell) (keep : Bool)
    (out : Output) :
    finishLoop env context ifs options spans offset cells keep out =
      finishLoop env context ifs options spans' offset' cells keep out := by
  conv_rhs => rw [finishLoop]
  split
  · rename_i hcur
    rw [finishLoop_of_done cells keep out (h.trans hcur)]
  · rename_i hcur
    conv_lhs => rw [finishLoop]
    split
    · rename_i hcur'
      rw [h, hcur] at hcur'
      cases hcur'
    · rename_i hcur'
      rw [h, hcur] at hcur'
      cases hcur'
      rfl

/-- A span that is not split is copied from the cursor to its end. -/
theorem finishLoop_copies {ifs : Bytes} {options : UInt32} {span : Span}
    {rest : List Span} (hsplit : span.split = false) (hne : span.text ≠ []) {offset : ℕ}
    (hoffset : offset ≤ span.text.length) (cells : List Cell) (keep : Bool) (out : Output) :
    finishLoop env context ifs options (span :: rest) offset cells keep out =
      finishLoop env context ifs options rest 0
        (cells ++ span.cells offset (span.text.length - offset)) keep out := by
  induction hn : span.text.length - offset using Nat.strong_induction_on
    generalizing offset cells with
  | h n ih =>
    by_cases hend : offset < span.text.length
    · have hcur : current (span :: rest) offset = (span :: rest, offset) := by
        simp [current, hend]
      have hdelimiter : (if context = .argument then
          delimiter env ifs (span :: rest) offset else none) = none := by
        simp [delimiter, hsplit]
      have hdrop : span.text.drop offset ≠ [] := by simpa using hend
      have hpos := env.current.characterLength_final_pos hdrop
      have hle := env.current.characterLength_final_le hdrop
      rw [length_drop] at hle
      rw [finishLoop_of_character cells keep out hcur (by simpa using hne) hdelimiter]
      generalize env.current.characterLength (span.text.drop offset) true = width at hpos hle ⊢
      rw [ih (span.text.length - (offset + width)) (by omega) (by omega) _ rfl, append_assoc,
        cells_add, ← hn]
      congr 3
      omega
    · have hoff : offset = span.text.length := Nat.le_antisymm hoffset (Nat.le_of_not_lt hend)
      have hcur : current (span :: rest) offset = current rest 0 := by
        rw [current, if_neg]
        simp [hend, hne]
      have hnone : span.cells offset n = [] := by simp [Span.cells, ← hn, hoff]
      rw [finishLoop_congr hcur, hnone, append_nil]

/-- Spans that are not split make one candidate of all their bytes. -/
theorem finishLoop_unsplit {ifs : Bytes} {options : UInt32}
    {spans : List Span} (hspans : ∀ span ∈ spans, span.split = false ∧ (span.text = [] → span.keepEmpty = true))
    (cells : List Cell) (keep : Bool) (out : Output) (hsome : spans ≠ [] ∨ cells ≠ [] ∨ keep = true) :
    finishLoop env context ifs options spans 0 cells keep out =
      emit env context options (cells ++ spans.flatMap allCells) out := by
  induction spans generalizing cells keep with
  | nil =>
    have hkeep : (!cells.isEmpty || keep) = true := by
      rcases hsome with hne | hne | hkeep
      · exact absurd rfl hne
      · simp [hne]
      · simp [hkeep]
    rw [finishLoop_of_done cells keep out (show current [] 0 = ([], 0) from rfl), if_pos hkeep]
    simp
  | cons span rest ih =>
    obtain ⟨hsplit, hkeep⟩ := hspans span mem_cons_self
    have hrest : ∀ s ∈ rest, s.split = false ∧ (s.text = [] → s.keepEmpty = true) :=
      fun s hs => hspans s (mem_cons_of_mem span hs)
    by_cases hne : span.text = []
    · -- an empty protected span keeps the candidate
      have hcur : current (span :: rest) 0 = (span :: rest, 0) := by simp [current, hne, hkeep]
      rw [finishLoop_of_empty cells keep out hcur (by simp [hne]), ih hrest cells true (by simp)]
      simp [allCells, Span.cells, hne]
    · have hcells : span.cells 0 span.text.length ≠ [] := by simp [Span.cells, hne]
      rw [finishLoop_copies hsplit hne (Nat.zero_le _), Nat.sub_zero,
        ih hrest _ keep (Or.inr (Or.inl (by simp [hcells])))]
      simp [allCells]

/-! ### The encoder and the detector -/

/-- The detector finds no wildcard in the encoded value. -/
def Hidden (d : Decoder) (value : Bytes) : Prop := hasPattern d (protectBy d value) = false

instance (d : Decoder) (value : Bytes) : Decidable (Hidden d value) :=
  inferInstanceAs (Decidable (_ = false))

/-- **In the C locale and in UTF-8 every value is hidden.** -/
theorem hidden_of_asciiSafe (hd : d.AsciiSafe) (value : Bytes) : Hidden d value := by
  unfold Hidden
  rw [protectBy_eq hd]
  exact hasPattern_protect hd value

/-- The detector steps over a byte that is no wildcard and no part of a character. -/
theorem hasPattern_cons_plain {byte : UInt8} (hlow : byte < 0x80)
    (hwild : byte ∉ ascii "\\*?[") (rest : Bytes) : hasPattern d (byte :: rest) = hasPattern d rest := by
  have hne : ∀ c ∈ ascii "\\*?[", (byte == c) = false := by
    intro c hc
    rw [beq_eq_false_iff_ne]
    rintro rfl
    exact hwild hc
  rw [hasPattern, hne (byteOf '\\') (by decide), hne (byteOf '*') (by decide),
    hne (byteOf '?') (by decide), hne (byteOf '[') (by decide), patternWidth_ascii hlow]
  simp

/-- A value of ASCII bytes is hidden in every encoding. -/
theorem hidden_of_ascii {value : Bytes} (h : ∀ byte ∈ value, byte < 0x80) :
    Hidden d value := by
  unfold Hidden
  induction value with
  | nil => rw [protectBy, hasPattern]
  | cons byte rest ih =>
    have hbyte := h byte mem_cons_self
    have hrest := ih fun b hb => h b (mem_cons_of_mem byte hb)
    rw [protectBy, characterLength_ascii hbyte]
    simp only [Nat.lt_irrefl, if_false]
    split
    · -- the backslash hides the byte behind it
      rw [hasPattern, if_pos (by simp), patternWidth_ascii hbyte]
      simpa using hrest
    · next hactive =>
      rw [hasPattern_cons_plain hbyte ?_ _, hrest]
      intro hmem
      exact hactive ((by decide +kernel : ∀ c ∈ ascii "\\*?[", activeByte c = true) byte hmem)

/-- The cells of the unquoted beginning. -/
def leadCells (lead : Bytes) : List Cell := lead.map fun byte => ⟨byte, false, true⟩

/-- The encoder copies the unquoted beginning. -/
theorem makePattern_lead {lead : Bytes} (h : ∀ byte ∈ lead, ordinary byte = true)
    (cells : List Cell) :
    makePattern d .argument (leadCells lead ++ cells) false .outside =
      lead ++ makePattern d .argument cells false .outside := by
  induction lead with
  | nil => rfl
  | cons byte lead ih =>
    obtain ⟨hlow, hspecial⟩ := ordinary_spec (h byte mem_cons_self)
    have hback : (byte == byteOf '\\') = false := by
      rw [beq_eq_false_iff_ne]
      rintro rfl
      exact hspecial (by decide)
    have hopen : (byte == byteOf '[') = false := by
      rw [beq_eq_false_iff_ne]
      rintro rfl
      exact hspecial (by decide)
    have hstep : Bracket.outside.step byte false false = .outside := by simp [Bracket.step, hopen]
    have hrest := ih fun b hb => h b (mem_cons_of_mem byte hb)
    have hcells : leadCells (byte :: lead) ++ cells = ⟨byte, false, true⟩ :: (leadCells lead ++ cells) :=
      rfl
    have hwidth : d.characterLength (rawOf (⟨byte, false, true⟩ :: (leadCells lead ++ cells))) true = 1 :=
      characterLength_ascii hlow _ _
    rw [hcells, makePattern, hwidth]
    simp [hback, hopen, hstep, hrest]

/-- The detector reads over the unquoted beginning. -/
theorem hasPattern_lead {lead : Bytes} (h : ∀ byte ∈ lead, ordinary byte = true)
    (text : Bytes) : hasPattern d (lead ++ text) = hasPattern d text := by
  induction lead with
  | nil => rfl
  | cons byte lead ih =>
    obtain ⟨hlow, hspecial⟩ := ordinary_spec (h byte mem_cons_self)
    rw [cons_append, hasPattern_cons_plain hlow,
      ih fun b hb => h b (mem_cons_of_mem byte hb)]
    exact fun hmem => hspecial ((by decide +kernel : ∀ c ∈ ascii "\\*?[", c ∈ special) byte hmem)

/-! ### The candidate -/

/-- The cells of the quoted parts. -/
def partCells (parts : List Part) : List Cell := parts.flatMap fun part => allCells part.span

theorem rawOf_allCells (span : Span) : rawOf (allCells span) = span.text := by
  simp [rawOf, allCells, Span.cells, Function.comp_def]

theorem quoted_partCells {parts : List Part} : ∀ cell ∈ partCells parts, cell.quoted := by
  intro cell hcell
  obtain ⟨part, _, hpart⟩ := mem_flatMap.mp hcell
  obtain ⟨byte, _, rfl⟩ := mem_map.mp hpart
  rfl

theorem rawOf_partCells (parts : List Part) : rawOf (partCells parts) = meaning parts := by
  induction parts with
  | nil => rfl
  | cons part parts ih =>
    have hsplit : rawOf (partCells (part :: parts)) =
        rawOf (allCells part.span) ++ rawOf (partCells parts) := by
      simp [partCells, rawOf]
    rw [hsplit, rawOf_allCells, ih, meaning_cons]
    rfl

/-- The candidate that the spans of the word make. -/
theorem flatMap_wordSpans (lead : Bytes) (parts : List Part) :
    (wordSpans lead parts).flatMap allCells = leadCells lead ++ partCells parts := by
  unfold wordSpans
  rw [flatMap_append]
  congr 1
  · by_cases hlead : lead = []
    · simp [hlead, leadCells]
    · simp only [hlead, if_false, flatMap_cons, flatMap_nil, append_nil, allCells,
        Span.cells, drop_zero, take_length, leadCells]
      rfl
  · simp [partCells, flatMap_map]

/-- The splitter emits the one candidate. -/
theorem finishField_wordSpans {word : Token} {lead : Bytes} {parts : List Part}
    (h : QuotedWord word lead parts) (ifs : Bytes) (options : UInt32) (out : Output) :
    finishField env .argument ifs options (wordSpans lead parts) out =
      emit env .argument options (leadCells lead ++ partCells parts) out := by
  have hlead : (0 : UInt8) ∉ lead := fun hmem => (ordinary_spec (h.ordinary 0 hmem)).2 (by decide)
  have hparts : ∀ part ∈ parts, (0 : UInt8) ∉ part.meaning := by
    intro part hpart
    have hfine := h.fine part hpart
    cases part with
    | quote => decide
    | single text => exact hfine.2
  have hvalid : (wordSpans lead parts).all Span.wellFormed = true := by
    rw [all_eq_true]
    intro span hspan
    unfold wordSpans at hspan
    rcases mem_append.mp hspan with hmem | hmem
    · split at hmem
      · simp at hmem
      · rw [mem_singleton.mp hmem]
        simp [Span.wellFormed, hlead]
    · obtain ⟨part, hpart, rfl⟩ := mem_map.mp hmem
      simp [Span.wellFormed, Part.span, hparts part hpart]
  have hunsplit : ∀ span ∈ wordSpans lead parts,
      span.split = false ∧ (span.text = [] → span.keepEmpty = true) := by
    intro span hspan
    unfold wordSpans at hspan
    rcases mem_append.mp hspan with hmem | hmem
    · split at hmem
      · simp at hmem
      · next hne =>
        rw [mem_singleton.mp hmem]
        exact ⟨rfl, fun hnil => absurd hnil hne⟩
    · obtain ⟨part, _, rfl⟩ := mem_map.mp hmem
      exact ⟨rfl, fun _ => rfl⟩
  have hsome : wordSpans lead parts ≠ [] := by
    rcases h.nonempty with hne | hne <;> simp [wordSpans, hne]
  rw [finishField, if_pos hvalid, finishLoop_unsplit hunsplit [] _ out (Or.inl hsome),
    flatMap_wordSpans]
  rfl

theorem finishFields_one (context : ExpandContext) (ifs : Bytes) (options : UInt32)
    (field : List Span) (out : Output) :
    finishFields env context ifs options [field] out = finishField env context ifs options field out := by
  rw [finishFields]
  generalize finishField env context ifs options field out = r
  obtain ⟨result, out⟩ := r
  cases result <;> rfl

/-- What the splitter makes of the word. -/
theorem expandFields_wordSpans {word : Token} {lead : Bytes} {parts : List Part}
    (h : QuotedWord word lead parts) (s : State F) :
    finishFields env .argument (ifsOf s) s.info.options [wordSpans lead parts] {} =
      if hasBit s.info.options Opt.noglob then (.ok, { fields := [lead ++ meaning parts] })
      else pathnameExpand env.fs env.current (lead ++ meaning parts)
        (lead ++ protectBy env.current (meaning parts)) {} := by
  have hraw : rawOf (leadCells lead ++ partCells parts) = lead ++ meaning parts := by
    have hlead : rawOf (leadCells lead) = lead := by simp [rawOf, leadCells, Function.comp_def]
    have hsplit : rawOf (leadCells lead ++ partCells parts) =
        rawOf (leadCells lead) ++ rawOf (partCells parts) := map_append
    rw [hsplit, hlead, rawOf_partCells]
  have hpattern : makePattern env.current .argument (leadCells lead ++ partCells parts) false .outside =
      lead ++ protectBy env.current (meaning parts) := by
    rw [makePattern_lead h.ordinary, makePattern_protectBy _ _ quoted_partCells, rawOf_partCells]
  rw [finishFields_one, finishField_wordSpans h]
  simp only [emit, hraw, hpattern]
  rfl

/-! ### A file system that fails -/

/-- A file system on which every look fails. -/
def broken : FileSystem where
  fnmatch _ _ _ := false
  strcoll _ _ := .eq
  opendir _ := .error .other
  lstat _ := .error .other
  stat _ := .error .other

/-- One component fails there, unless it is a literal one before others. -/
theorem componentStep_broken {separators component path : Bytes} {final : Bool}
    {next : Output} (hok : (componentStep broken d separators component final path next).1 = .ok) :
    final = false ∧ componentStep broken d separators component final path next =
      (.ok, next.append (path ++ separators ++ unescape d component)) := by
  unfold componentStep at hok ⊢
  by_cases hpattern : hasPattern d component = true
  · simp [hpattern, patternPaths, broken, filesystemError] at hok
  · simp only [hpattern] at hok ⊢
    cases final with
    | false => exact ⟨rfl, rfl⟩
    | true =>
      simp only [literalPath, broken, filesystemError, Bool.not_true, Bool.false_eq_true,
        if_false] at hok
      split at hok <;> cases hok

theorem extendPaths_broken {separators component : Bytes} {final : Bool}
    {paths : List Bytes} {next : Output} (hsome : paths ≠ [] ∨ next.fields ≠ [])
    (hok : (extendPaths (componentStep broken d separators component final) paths next).1 = .ok) :
    (paths ≠ [] → final = false) ∧
      (extendPaths (componentStep broken d separators component final) paths next).2.fields ≠ [] := by
  induction paths generalizing next with
  | nil => exact ⟨fun h => absurd rfl h, hsome.resolve_left fun h => h rfl⟩
  | cons path paths ih =>
    have hfirst : (componentStep broken d separators component final path next).1 = .ok := by
      by_contra hne
      unfold extendPaths at hok
      split at hok
      · next h => exact hne (by rw [h])
      · exact hne hok
    obtain ⟨hfinal, hstep⟩ := componentStep_broken hfirst
    rw [extendPaths, hstep] at hok ⊢
    exact ⟨fun _ => hfinal, (ih (Or.inr (by simp)) hok).2⟩

/-- No walk over a pattern ends well there. -/
theorem walkComponents_broken {position : Bytes} {components : ℕ} {paths : Output}
    (hposition : position ≠ []) (hpaths : paths.fields ≠ []) :
    (walkComponents broken d position components paths).1 ≠ .ok := by
  fun_induction walkComponents broken d position components paths with
  | case1 components paths => exact absurd rfl hposition
  | case2 position components paths _ hnil => exact absurd hnil hpaths
  | case3 => simp
  | case4 position components paths _ _ separators rest component after _ next hextend ih =>
    have hok : (extendPaths (componentStep broken d separators component after.isEmpty) paths.fields
        { paths with fields := [] }).1 = .ok := by rw [hextend]
    obtain ⟨hfinal, hfields⟩ := extendPaths_broken (Or.inl hpaths) hok
    rw [hextend] at hfields
    exact ih (by simpa using hfinal hpaths) hfields
  | case5 position components paths _ _ separators rest component after _ hfailed =>
    exact fun hok => hfailed _ (Prod.ext hok rfl)

theorem copyUnescaping_ne_nil {escape : UInt8 → Bytes} {text : Bytes} (h : text ≠ []) :
    copyUnescaping d escape text ≠ [] := by
  obtain ⟨byte, rest, rfl⟩ := exists_cons_of_ne_nil h
  rw [copyUnescaping.eq_def]
  cases rest with
  | nil => simp
  | cons next rest =>
    simp only
    split <;> simp

/-- A pattern with a wildcard cannot be expanded there. -/
theorem pathnameExpand_broken {pattern : Bytes} (h : hasPattern d pattern = true)
    (raw : Bytes) (out : Output) : (pathnameExpand broken d raw pattern out).1 ≠ .ok := by
  have hne : pattern ≠ [] := by
    rintro rfl
    rw [hasPattern] at h
    cases h
  have hwalk : (walkComponents broken d (pathnamePattern d pattern) 0
      { fields := [[]], log := out.log }).1 ≠ .ok :=
    walkComponents_broken (copyUnescaping_ne_nil hne) (by simp)
  intro hok
  unfold pathnameExpand at hok
  rw [h, Bool.not_true, if_neg (by simp)] at hok
  split at hok
  · next hresult => exact hwalk (by rw [hresult])
  · next hfailed _ => exact hfailed hok

/-! ### Reading back -/

/-- A printed value, standing as a word in the input of a lexer between two tokens, is
read as one token and expands to the field that the printer means. -/
def Rereads (env : ExpandEnv) (stack : ℕ) (s : State F) (options : ExpandOptions F)
    (printer : Printer) (value : Bytes) : Prop :=
  ∀ (m : Lexical.Machine) (rest : Bytes), Boundary m →
    m.source.unread = printer.text value ++ rest → Ends m.source.final rest →
    ∃ t m', m.lexerNext env.lexical m.depth = (.token t, m') ∧ t.kind = .word ∧
      t.raw = printer.text value ∧ m'.source.unread = rest ∧
      let r := expandWord env stack s t options
      r.result = .ok ∧ r.state = s ∧ (expandFields env r.state r.out).1 = .ok ∧
        (expandFields env r.state r.out).2.1.fields = [printer.field value]

/-- A lexer that was just given a text, all of its input. -/
def fed (text : Bytes) : Lexical.Machine :=
  { source := { data := text, final := true }, lexer := {}, parents := [] }

theorem boundary_fed (text : Bytes) : Boundary (fed text) :=
  ⟨rfl, rfl, rfl, ⟨rfl, rfl, rfl, rfl, rfl, fun _ => rfl⟩⟩

/-- What the lexer and the expander make of a printed word. -/
theorem word_read (hlexical : env.lexical.QuoteSafe) {stack : ℕ} (hstack : 2 ≤ stack) {s : State F}
    (hs : s.Reachable) {options : ExpandOptions F} (hcontext : options.context = .argument)
    {lead : Bytes} {parts : List Part} (hlead : ∀ byte ∈ lead, ordinary byte = true)
    (hfine : ∀ part ∈ parts, part.Fine) (hne : lead ≠ [] ∨ parts ≠ []) {m : Lexical.Machine}
    (hm : Boundary m) {rest : Bytes} (hunread : m.source.unread = lead ++ spelling parts ++ rest)
    (hends : Ends m.source.final rest) :
    ∃ t m', m.lexerNext env.lexical m.depth = (.token t, m') ∧ m'.source.unread = rest ∧
      QuotedWord t lead parts ∧
      expandWord env stack s t options = ⟨.ok, s, ⟨[wordSpans lead parts], .argument⟩, {}⟩ := by
  obtain ⟨t, m', start, finish, gs, hnext, hkind, hraw, hrest, hfragments, hlays⟩ :=
    lexerNext_word hlexical hm hlead hfine hne hunread hends
  have hword : QuotedWord t lead parts :=
    ⟨hkind, hraw, hlead, hfine, hne, start, finish, gs, hfragments, hlays⟩
  exact ⟨t, m', hnext, hrest, hword, expandWord_quotedWord hword hstack hs.save_eq hcontext⟩

/-- **A printed value is read back on every file system if and only if pathname
expansion is off or the value is hidden.**  The byte of the single quote is in no
multibyte character of the source encoding; the current encoding, the separators,
the options and the other users' home directories are arbitrary. -/
theorem rereads_iff (lexical current : Decoder) (hlexical : lexical.QuoteSafe)
    (getpwnam : Bytes → Option Bytes) (stack : ℕ) (hstack : 2 ≤ stack) (s : State F)
    (hs : s.Reachable) (options : ExpandOptions F) (hcontext : options.context = .argument)
    (printer : Printer) (hprinter : printer.Valid) (value : Bytes) (hnul : NulFree value) :
    (∀ fs, Rereads ⟨lexical, current, fs, getpwnam⟩ stack s options printer value) ↔
      hasBit s.info.options Opt.noglob = true ∨ Hidden current value := by
  obtain ⟨lead, parts, htext, hfield, hlead, hfine, hne, hvalue⟩ := printer.text_eq hprinter hnul
  have hhidden : hasPattern current (lead ++ protectBy current (meaning parts)) = false ↔
      Hidden current value := by
    rw [hasPattern_lead hlead]
    rcases hvalue with ⟨hparts, hsame⟩ | hsame
    · -- a word without quotes has no wildcard
      have hleadValue : value = lead := by
        rw [← hsame, hfield, hparts]
        simp
      have hplain : Hidden current value :=
        hidden_of_ascii fun byte hbyte => (ordinary_spec (hlead byte (hleadValue ▸ hbyte))).1
      rw [hparts, meaning_nil, protectBy, hasPattern]
      exact ⟨fun _ => hplain, fun _ => rfl⟩
    · rw [hsame]
      rfl
  constructor
  · intro hall
    by_contra hnot
    rw [not_or, ← hhidden, Bool.not_eq_false] at hnot
    obtain ⟨hglob, hactive⟩ := hnot
    have hends : Ends true [] := rfl
    obtain ⟨t, m', hnext, -, -, -, -, -, hok, -⟩ :=
      hall broken (fed (printer.text value)) [] (boundary_fed _) (by simp [fed, Lexical.Source.unread]) hends
    obtain ⟨t', m'', hnext', -, hword, hexpand⟩ := @word_read F ⟨lexical, current, broken, getpwnam⟩
      hlexical stack hstack s hs options hcontext lead parts hlead hfine hne
      (fed (printer.text value)) (boundary_fed _) []
      (by rw [← htext]; simp [fed, Lexical.Source.unread]) hends
    have htoken : t = t' := by
      have hsame := hnext.symm.trans hnext'
      cases hsame
      rfl
    rw [htoken, hexpand] at hok
    refine pathnameExpand_broken hactive (lead ++ meaning parts) {} ?_
    have hfields := @expandFields_wordSpans F ⟨lexical, current, broken, getpwnam⟩ t' lead parts hword s
    rw [if_neg hglob] at hfields
    unfold expandFields at hok
    rw [hfields] at hok
    split at hok
    · next hresult => rw [hresult]
    · exact absurd hok (by assumption)
  · intro hcondition fs m rest hm hunread hends
    rw [htext] at hunread
    obtain ⟨t, m', hnext, hrest, hword, hexpand⟩ := @word_read F ⟨lexical, current, fs, getpwnam⟩
      hlexical stack hstack s hs options hcontext lead parts hlead hfine hne m hm rest hunread hends
    refine ⟨t, m', hnext, hword.kind, hword.raw.trans htext.symm, hrest, ?_⟩
    have hfields : finishFields ⟨lexical, current, fs, getpwnam⟩ .argument (ifsOf s) s.info.options
        [wordSpans lead parts] {} = (.ok, { fields := [lead ++ meaning parts] }) := by
      rw [expandFields_wordSpans hword]
      rcases hcondition with hglob | hvalueHidden
      · rw [if_pos hglob]
      · rw [pathnameExpand_of_not_hasPattern (hhidden.mpr hvalueHidden)]
        simp [Output.append]
    simp only [hexpand, expandFields, hfields, hfield]
    exact ⟨trivial, trivial, trivial, trivial⟩

theorem posix_quoteSafe : Decoder.posix.QuoteSafe := by
  constructor
  · intro text n h hn
    cases text with
    | nil => cases h
    | cons byte rest =>
      simp only [Decoder.posix, Mbrlen.bytes.injEq] at h
      split at h <;> omega
  · intro text h
    cases text with
    | nil => simp
    | cons byte rest => cases h

/-- The state of a shell without arguments. -/
abbrev fresh : State Unit := State.create [] [] [] 1 .stdin 0 false

/-- An action of a trap with a quote and a wildcard in it. -/
theorem rereads_iff_action :
    NulFree (ascii "echo it's *") ∧
      Rereads ⟨.posix, .posix, .empty, fun _ => none⟩ 2 fresh {} .quoteAction (ascii "echo it's *") :=
  ⟨by decide, (rereads_iff .posix .posix posix_quoteSafe (fun _ => none) 2 (Nat.le_refl 2) fresh
    (.create ..) {} rfl .quoteAction trivial (ascii "echo it's *") (by decide)).mpr
    (Or.inr (hidden_of_asciiSafe Decoder.posix_asciiSafe _)) .empty⟩

/-! ### An encoding with backslashes in characters -/

/-- The characters of GBK: a byte from 0x81 to 0xFE, and one from 0x40 to 0xFE that is
not 0x7F. -/
def gbkLength : Bytes → Mbrlen
  | [] => .incomplete
  | first :: rest =>
    if first.toNat < 128 then .bytes (if first = 0 then 0 else 1)
    else if first.toNat = 128 ∨ first.toNat = 255 then .invalid
    else
      match rest with
      | [] => .incomplete
      | second :: _ =>
        if 64 ≤ second.toNat ∧ second.toNat ≠ 127 ∧ second.toNat ≠ 255 then .bytes 2 else .invalid

theorem gbkLength_le {text : Bytes} {n : ℕ} (h : gbkLength text = .bytes n) : n ≤ text.length := by
  cases text with
  | nil => cases h
  | cons first rest =>
    simp only [gbkLength] at h
    split at h
    · simp only [Mbrlen.bytes.injEq] at h
      subst h
      simp only [length_cons]
      split <;> omega
    · split at h
      · cases h
      · cases rest with
        | nil => cases h
        | cons second rest =>
          simp only at h
          split at h
          · cases h
            simp
          · cases h

/-- The locale of that encoding. -/
def gbk : Decoder where
  mbrlen := gbkLength
  mbCurMax := 2
  btowc byte := byte.toNat < 128
  mbrlen_le := @gbkLength_le
  mbCurMax_pos := Nat.two_pos

theorem gbk_quoteSafe : gbk.QuoteSafe := by
  constructor
  · intro text n h hn
    cases text with
    | nil => cases h
    | cons first rest =>
      simp only [gbk, gbkLength] at h
      split at h
      · simp only [Mbrlen.bytes.injEq] at h
        split at h <;> omega
      · next hfirst =>
        split at h
        · cases h
        · cases rest with
          | nil => cases h
          | cons second rest =>
            simp only at h
            split at h
            · next hsecond =>
              cases h
              simp only [take_succ_cons, take_zero, mem_cons, not_mem_nil, or_false,
                not_or]
              constructor
              · rintro rfl
                exact hfirst (by decide)
              · rintro rfl
                exact absurd hsecond.1 (by decide)
            · cases h
  · intro text h
    cases text with
    | nil => simp
    | cons first rest =>
      simp only [gbk, gbkLength] at h
      split at h
      · cases h
      · next hfirst =>
        split at h
        · cases h
        · cases rest with
          | nil =>
            simp only [mem_singleton]
            rintro rfl
            exact hfirst (by decide)
          | cons second rest =>
            simp only at h
            split at h <;> cases h

/-- The two bytes 0x81 and `*`, which are no character together. -/
def bareLead : Bytes := [0x81, byteOf '*']

/-- The file whose name is the character 0x81 0x5C and an `x`. -/
def neighbour : Bytes := [0x81, byteOf '\\', byteOf 'x']

/-- A directory with that file. -/
def oneFile : FileSystem where
  fnmatch pattern text _ :=
    if pattern = [0x81, byteOf '\\', byteOf '*'] then text.take 2 == [0x81, byteOf '\\']
    else pattern == text
  strcoll a b := compareOfLessAndEq a b
  opendir path := if path = ascii "." then .ok { entries := [neighbour] } else .error .noent
  lstat path := if path = neighbour then .ok () else .error .noent
  stat path := .ok (path == ascii ".")

theorem protectBy_bareLead : protectBy gbk bareLead = [0x81, byteOf '\\', byteOf '*'] := by
  have hfirst : gbk.characterLength [0x81, byteOf '*'] true = 1 := by decide
  have hsecond : gbk.characterLength [byteOf '*'] true = 1 := by decide
  rw [bareLead, protectBy, hfirst]
  simp only [Nat.lt_irrefl, if_false]
  rw [if_neg (by decide), protectBy, hsecond]
  simp only [Nat.lt_irrefl, if_false]
  rw [if_pos (by decide), protectBy]

/-- The backslash is the second byte of a character. -/
theorem hasPattern_bareLead : hasPattern gbk [0x81, byteOf '\\', byteOf '*'] = true := by
  have hwidth : gbk.patternWidth [0x81, byteOf '\\', byteOf '*'] = 2 := by decide
  rw [hasPattern, if_neg (by decide), if_neg (by decide), hwidth]
  rw [show ([byteOf '\\', byteOf '*'] : Bytes).drop (2 - 1) = [byteOf '*'] from rfl]
  rw [hasPattern, if_neg (by decide), if_pos (by decide)]

theorem pathnameExpand_bareLead :
    pathnameExpand oneFile gbk bareLead (protectBy gbk bareLead) {} =
      (.ok, { fields := [neighbour], log := [.opendir (ascii ".")] }) := by
  have hpattern : pathnamePattern gbk [0x81, byteOf '\\', byteOf '*'] =
      [0x81, byteOf '\\', byteOf '*'] := by
    have hwidth : gbk.patternWidth [0x81, byteOf '\\', byteOf '*'] = 2 := by decide
    rw [pathnamePattern, copyUnescaping, if_neg (by decide), hwidth]
    show _ :: [byteOf '\\'] ++ copyUnescaping gbk _ [byteOf '*'] = _
    rw [copyUnescaping]
    rfl
  have hextend : extendPaths (componentStep oneFile gbk [] [0x81, byteOf '\\', byteOf '*'] true) [[]]
      {} = (.ok, { fields := [neighbour], log := [.opendir (ascii ".")] }) := by
    rw [extendPaths, componentStep, if_pos hasPattern_bareLead]
    decide
  have hwalk : walkComponents oneFile gbk [0x81, byteOf '\\', byteOf '*'] 0 { fields := [[]] } =
      (.ok, { fields := [neighbour], log := [.opendir (ascii ".")] }) := by
    rw [walkComponents, dif_neg (by decide), if_neg (by decide)]
    simp only [show ([0x81, byteOf '\\', byteOf '*'] : Bytes).takeWhile (· == byteOf '/') = [] by decide,
      show ([0x81, byteOf '\\', byteOf '*'] : Bytes).dropWhile (· == byteOf '/') =
        [0x81, byteOf '\\', byteOf '*'] by decide,
      show ([0x81, byteOf '\\', byteOf '*'] : Bytes).takeWhile (· != byteOf '/') =
        [0x81, byteOf '\\', byteOf '*'] by decide,
      show ([0x81, byteOf '\\', byteOf '*'] : Bytes).dropWhile (· != byteOf '/') = [] by decide]
    rw [if_neg (by decide), isEmpty_nil, hextend]
    simp only
    rw [walkComponents, dif_pos rfl]
  rw [protectBy_bareLead, pathnameExpand, hasPattern_bareLead, hpattern, hwalk]
  simp

/-- **In GBK a printed value is read back as the name of a file**: the detector takes
0x81 and the protecting backslash for a character and sees the wildcard behind it. -/
theorem not_rereads_bareLead :
    gbk.QuoteSafe ∧ NulFree bareLead ∧
      (∃ t m', (fed (Printer.quoted.text bareLead)).lexerNext gbk 0 = (.token t, m') ∧
        let r := expandWord ⟨gbk, gbk, oneFile, fun _ => none⟩ 2 fresh t {}
        (expandFields ⟨gbk, gbk, oneFile, fun _ => none⟩ r.state r.out).2.1.fields = [neighbour]) ∧
      ¬ Rereads ⟨gbk, gbk, oneFile, fun _ => none⟩ 2 fresh {} .quoted bareLead := by
  have htext : Printer.quoted.text bareLead = [] ++ spelling [.single bareLead] := by
    rw [Printer.text, Quoting.quoted, quotedLoop_eq]
    decide
  have hends : Ends true [] := rfl
  have hunread : (fed (Printer.quoted.text bareLead)).source.unread =
      [] ++ spelling [.single bareLead] ++ [] := by
    rw [← htext]
    simp [fed, Lexical.Source.unread]
  obtain ⟨t, m', hnext, -, hword, hexpand⟩ := @word_read Unit ⟨gbk, gbk, oneFile, fun _ => none⟩
    gbk_quoteSafe 2 (Nat.le_refl 2) fresh (.create ..) {} rfl [] [.single bareLead] (by simp)
    (by simpa [Part.Fine] using (by decide : tick ∉ bareLead ∧ NulFree bareLead)) (Or.inr (by simp))
    (fed (Printer.quoted.text bareLead)) (boundary_fed _) [] hunread hends
  have hfields := @expandFields_wordSpans Unit ⟨gbk, gbk, oneFile, fun _ => none⟩ t [] [.single bareLead]
    hword fresh
  have hmeaning : meaning [.single bareLead] = bareLead := rfl
  rw [if_neg (by decide), hmeaning, nil_append, nil_append, pathnameExpand_bareLead] at hfields
  have hresult : (expandFields ⟨gbk, gbk, oneFile, fun _ => none⟩ fresh
      ⟨[wordSpans [] [.single bareLead]], .argument⟩).2.1.fields = [neighbour] := by
    simp only [expandFields, hfields]
  refine ⟨gbk_quoteSafe, by decide, ⟨t, m', hnext, ?_⟩, fun hall => ?_⟩
  · simp only [hexpand]
    exact hresult
  · obtain ⟨t', m'', hnext', -, -, -, -, -, -, hsame⟩ := hall (fed (Printer.quoted.text bareLead)) []
      (boundary_fed _) (by simpa [htext] using hunread) hends
    have htoken : t' = t := by
      have heq := hnext'.symm.trans hnext
      cases heq
      rfl
    rw [htoken, hexpand] at hsame
    rw [hresult] at hsame
    exact absurd hsame (by decide)

end Quoting
end CShell
