import CShell.Parse.Lookahead
import CShell.Quoting.Encoding

/-!
# The lines of here-documents

The here-documents of a line stand behind it, one after the other, and each ends with
the first line that is its delimiter.  Which line that is, is asked of *logical* lines:
unless the delimiter was quoted, an odd number of backslashes at the end of a line
joins it with the next.  The body is made of the *physical* lines, so that the
continuations in it are still there when it is expanded.

The collector reads both in one pass over the tape, line by line as the input has
them.  The reference takes the text that follows and cuts it.

## Main definitions

* `logicalLine` — the first logical line of a text.
* `withoutTabs` — physical lines without the tabs that begin the logical line.
* `documentBody`, `documentBodies` — the bodies of here-documents in a text.
* `Awaits s unread rest` — a run between tokens, with the text that follows.

## Main results

* `stripTabs_flatten` — the tabs are taken off the physical lines as they stand.
* `documentLoop_line` — a logical line is read.
* `collectDocuments_bodies` — **the collector reads the bodies the reference cuts.**

## References

`src/parser.c` (`collect_documents`, `append_document_line`, `feed_line`),
`src/lexer.c` (`csh_lexer_skip_raw`).
-/

namespace CShell
namespace Parse

open Lexical Quoting List

variable {d : Decoder}

/-! ### Cutting a text -/

/-- The newline. -/
def newlineByte : UInt8 := byteOf '\n'

/-- The number of backslash characters at the end of a text. -/
def closingSlashes (d : Decoder) (text : Bytes) : ℕ :=
  ((characters d text).reverse.takeWhile (· == slash)).length

/-- The bytes before the first newline. -/
def lineContent (text : Bytes) : Bytes := text.takeWhile (· != newlineByte)

theorem length_dropWhile_lt {text rest : Bytes} {newline : UInt8}
    (h : text.dropWhile (· != newlineByte) = newline :: rest) : rest.length < text.length := by
  have hle := (dropWhile_suffix (· != newlineByte) (l := text)).length_le
  rw [h, length_cons] at hle
  omega

/-- The first logical line of a text: its physical lines, what they say together, and
the rest of the text.  Nothing, if the text ends before the line does. -/
def logicalLine (d : Decoder) (quoted : Bool) (text : Bytes) : Option (List Bytes × Bytes × Bytes) :=
  match text with
  | [] => none
  | byte :: more =>
    let content := lineContent (byte :: more)
    match _h : (byte :: more).dropWhile (· != newlineByte) with
    | [] => some ([content], content, [])
    | newline :: rest =>
      if quoted = false ∧ closingSlashes d content % 2 = 1 then
        (logicalLine d quoted rest).map fun line =>
          ((content ++ [newline]) :: line.1, content.dropLast ++ line.2.1, line.2.2)
      else some ([content ++ [newline]], content, rest)
termination_by text.length
decreasing_by exact length_dropWhile_lt _h

/-- Physical lines without the tabs that begin the logical line.  A line of which
nothing else is left but its continuation leaves the beginning to the next. -/
def withoutTabs : List Bytes → Bytes
  | [] => []
  | line :: lines =>
    let kept := line.dropWhile (· == byteOf '\t')
    if kept = slash ++ [newlineByte] then kept ++ withoutTabs lines else kept ++ lines.flatten

/-- The rest of a text behind its first logical line is shorter. -/
theorem length_logicalLine {quoted : Bool} {text said rest : Bytes} {lines : List Bytes}
    (h : logicalLine d quoted text = some (lines, said, rest)) : rest.length < text.length := by
  fun_induction logicalLine d quoted text generalizing lines said with
  | case1 => cases h
  | case2 =>
    cases h
    simp
  | case3 =>
    rename_i hdrop _ ih
    obtain ⟨line, hline, heq⟩ := Option.map_eq_some_iff.mp h
    cases heq
    exact (ih hline).trans (length_dropWhile_lt hdrop)
  | case4 =>
    rename_i hdrop _
    cases h
    exact length_dropWhile_lt hdrop

/-- Is a logical line the delimiter of a document? -/
def delimits (document : Document) (said : Bytes) : Bool :=
  (if document.operatorKind = .dlessDash then said.dropWhile (· == byteOf '\t') else said) ==
    document.delimiter

/-- What the physical lines of a logical line are in a body. -/
def bodyLines (document : Document) (lines : List Bytes) : Bytes :=
  if document.operatorKind = .dlessDash then withoutTabs lines else lines.flatten

/-- The body of a document at the beginning of a text, and the rest of the text.
Nothing, if the text ends before the delimiter. -/
def documentBody (d : Decoder) (document : Document) (text : Bytes) : Option (Bytes × Bytes) :=
  match _h : logicalLine d document.delimiterQuoted text with
  | none => none
  | some (lines, said, rest) =>
    if delimits document said = true then some ([], rest)
    else
      (documentBody d document rest).map fun found => (bodyLines document lines ++ found.1, found.2)
termination_by text.length
decreasing_by exact length_logicalLine _h

/-- The bodies of documents that follow each other. -/
def documentBodies (d : Decoder) : List Document → Bytes → Option (List Bytes × Bytes)
  | [], text => some ([], text)
  | document :: documents, text =>
    (documentBody d document text).bind fun found =>
      (documentBodies d documents found.2).map fun others => (found.1 :: others.1, others.2)

/-- A continuation at the beginning of the line is passed over by `<<-`, and stays. -/
example : documentBodies .posix
    [⟨.dlessDash, ascii "E", false, {}, none, {}, {}⟩, ⟨.dless, ascii "F", true, {}, none, {}, {}⟩]
    (ascii "\t\\\n\ta\n\\\n\tE\n\\\n\tF\nF\nb") =
      some ([ascii "\\\na\n", ascii "\\\n\tF\n"], ascii "b") := by
  decide +kernel

/-! ### Lines -/

section Lines

variable {text content : Bytes}

theorem lineContent_append (text : Bytes) :
    text = lineContent text ++ text.dropWhile (· != newlineByte) :=
  (takeWhile_append_dropWhile (p := (· != newlineByte)) (l := text)).symm

theorem newline_not_mem_lineContent (text : Bytes) : newlineByte ∉ lineContent text := by
  intro hmem
  have := mem_takeWhile_imp hmem
  simp at this

/-- What stands behind the content of a line begins with a newline. -/
theorem head_of_dropWhile {newline : UInt8} {rest : Bytes}
    (h : text.dropWhile (· != newlineByte) = newline :: rest) : newline = newlineByte := by
  have hhead := head?_dropWhile_not (· != newlineByte) text
  rw [h] at hhead
  simpa using hhead

/-- The characters of a text are the text. -/
theorem flatten_characters (d : Decoder) (text : Bytes) : (characters d text).flatten = text := by
  fun_induction characters d text with
  | case1 => rfl
  | case2 byte rest width ih =>
    have hpos : 0 < width := Decoder.characterLength_final_pos (cons_ne_nil _ _)
    rw [flatten_cons, ih]
    obtain ⟨k, hk⟩ := Nat.exists_eq_succ_of_ne_zero (Nat.ne_of_gt hpos)
    rw [hk, take_succ_cons, Nat.succ_sub_one, cons_append, take_append_drop]

/-- A text with a backslash character at its end ends with that byte. -/
theorem getLast_of_closingSlashes (h : closingSlashes d text ≠ 0) :
    text.getLast? = some (byteOf '\\') := by
  have hflatten := flatten_characters d text
  unfold closingSlashes at h
  cases hr : (characters d text).reverse with
  | nil => simp [hr] at h
  | cons last others =>
    rw [hr, takeWhile_cons] at h
    split at h
    · next hlast =>
      have heq : characters d text = others.reverse ++ [slash] := by
        rw [← reverse_reverse (characters d text), hr, reverse_cons, eq_of_beq hlast]
      rw [← hflatten, heq]
      simp [slash]
    · exact absurd rfl h

theorem takeWhile_length_append {α : Type*} (p : α → Bool) (xs ys : List α) :
    ((xs ++ ys).takeWhile p).length =
      if xs.all p = true then xs.length + (ys.takeWhile p).length else (xs.takeWhile p).length := by
  induction xs with
  | nil => simp
  | cons x xs ih =>
    by_cases hx : p x = true
    · simp only [cons_append, takeWhile_cons_of_pos hx, length_cons, ih, all_cons,
        hx, Bool.true_and]
      split <;> omega
    · simp [hx]

/-- The loop that counts the backslashes at the end of a line. -/
theorem trailingBackslashes_eq (text : Bytes) (count : ℕ) :
    trailingBackslashes d text count =
      if (characters d text).all (· == slash) = true then count + (characters d text).length
      else closingSlashes d text := by
  fun_induction trailingBackslashes d text count with
  | case1 count =>
    rw [characters]
    rfl
  | case2 count byte rest width ih =>
    have hchars : characters d (byte :: rest) =
        (byte :: rest).take width :: characters d (rest.drop (width - 1)) := by
      rw [characters]
    have hpos : 0 < width := Decoder.characterLength_final_pos (cons_ne_nil _ _)
    have hfirst : ((byte :: rest).take width == slash) = decide (width = 1 ∧ byte = byteOf '\\') := by
      have hle : width ≤ (byte :: rest).length :=
        Decoder.characterLength_final_le (cons_ne_nil _ _)
      rw [Bool.eq_iff_iff, beq_iff_eq, decide_eq_true_iff, slash]
      constructor
      · intro heq
        have hlen := congrArg length heq
        rw [length_take, length_singleton] at hlen
        have hone : width = 1 := by omega
        rw [hone] at heq
        exact ⟨hone, by simpa using heq⟩
      · rintro ⟨hone, rfl⟩
        rw [hone]
        rfl
    have hclosing : closingSlashes d (byte :: rest) =
        if (characters d (rest.drop (width - 1))).all (· == slash) = true then
          (characters d (rest.drop (width - 1))).length +
            (if width = 1 ∧ byte = byteOf '\\' then 1 else 0)
        else closingSlashes d (rest.drop (width - 1)) := by
      unfold closingSlashes
      rw [hchars, reverse_cons, takeWhile_length_append, all_reverse, length_reverse]
      congr 2
      rw [takeWhile_cons, hfirst]
      by_cases hslash : width = 1 ∧ byte = byteOf '\\' <;> simp [hslash]
    simp only [dite_eq_ite] at ih
    rw [ih, hclosing, hchars, all_cons, hfirst, length_cons]
    by_cases hall : (characters d (rest.drop (width - 1))).all (· == slash) = true
    · simp only [hall, Bool.and_true, decide_eq_true_eq, if_true]
      split_ifs <;> omega
    · simp only [hall, Bool.and_false, Bool.false_eq_true, if_false]

theorem trailingBackslashes_closing (text : Bytes) :
    trailingBackslashes d text 0 = closingSlashes d text := by
  rw [trailingBackslashes_eq]
  split
  · next hall =>
    unfold closingSlashes
    rw [← all_reverse] at hall
    rw [takeWhile_eq_self_iff.mpr (by simpa using hall), length_reverse, Nat.zero_add]
  · rfl

/-- The physical lines of a logical line: all but the last end with a backslash and a
newline, and the last may lack its newline. -/
inductive Physical (quoted : Bool) : List Bytes → Prop
  | last {content : Bytes} (hc : newlineByte ∉ content) {tail : Bytes}
      (ht : tail = [] ∨ tail = [newlineByte]) : Physical quoted [content ++ tail]
  | joined {content : Bytes} (hc : newlineByte ∉ content) (hq : quoted = false)
      (hs : content.getLast? = some (byteOf '\\')) {lines : List Bytes}
      (h : Physical quoted lines) : Physical quoted ((content ++ [newlineByte]) :: lines)

theorem logicalLine_physical {quoted : Bool} {said rest : Bytes} {lines : List Bytes}
    (h : logicalLine d quoted text = some (lines, said, rest)) :
    Physical quoted lines ∧ text = lines.flatten ++ rest := by
  fun_induction logicalLine d quoted text generalizing lines said with
  | case1 => cases h
  | case2 =>
    rename_i byte more content hdrop
    cases h
    have happ := lineContent_append (byte :: more)
    rw [hdrop, append_nil] at happ
    refine ⟨?_, by simpa using happ⟩
    have hlast := @Physical.last quoted _ (newline_not_mem_lineContent (byte :: more)) [] (.inl rfl)
    rwa [append_nil] at hlast
  | case3 =>
    rename_i byte more content newline tail hdrop hjoined ih
    obtain ⟨line, hline, heq⟩ := Option.map_eq_some_iff.mp h
    cases heq
    obtain ⟨hphysical, htext⟩ := ih hline
    have happ := lineContent_append (byte :: more)
    rw [hdrop] at happ
    have hlast := getLast_of_closingSlashes (show closingSlashes d content ≠ 0 by omega)
    rw [head_of_dropWhile hdrop] at happ ⊢
    refine ⟨.joined (newline_not_mem_lineContent _) hjoined.1 hlast hphysical, ?_⟩
    rw [happ, htext]
    simp [content]
  | case4 =>
    rename_i byte more content newline tail hdrop hjoined
    cases h
    have happ := lineContent_append (byte :: more)
    rw [hdrop] at happ
    rw [head_of_dropWhile hdrop] at happ ⊢
    refine ⟨.last (newline_not_mem_lineContent _) (.inr rfl), ?_⟩
    rw [happ]
    simp [content]

/-- Tabs at the beginning of a line go. -/
theorem stripTabs_dropWhile (quoted : Bool) (text : Bytes) :
    stripTabs quoted text = stripTabs quoted (text.dropWhile (· == byteOf '\t')) := by
  induction text with
  | nil => rfl
  | cons byte rest ih =>
    by_cases hb : byte = byteOf '\t'
    · rw [dropWhile_cons_of_pos (by simpa using hb), ← ih, stripTabs.eq_def]
      exact if_pos hb
    · rw [dropWhile_cons_of_neg (by simpa using hb)]

/-- Nothing more goes from a line that begins otherwise. -/
theorem stripTabs_stop {quoted : Bool} {byte : UInt8} {rest : Bytes} (hb : byte ≠ byteOf '\t')
    (h : quoted = true ∨ byte ≠ byteOf '\\' ∨ rest.head? ≠ some newlineByte) :
    stripTabs quoted (byte :: rest) = byte :: rest := by
  rw [stripTabs.eq_def]
  dsimp only
  rw [if_neg hb]
  cases rest with
  | nil => rfl
  | cons next after =>
    dsimp only
    rw [if_neg]
    intro hcont
    simp only [Bool.and_eq_true, Bool.not_eq_true', decide_eq_true_eq] at hcont
    obtain ⟨⟨hq, hslash⟩, hnext⟩ := hcont
    rcases h with h | h | h
    · rw [hq] at h
      cases h
    · exact h hslash
    · exact h (by rw [hnext]; rfl)

theorem dropWhile_append_tab {tail : Bytes} (ht : ∀ byte ∈ tail.head?, byte ≠ byteOf '\t') :
    (content ++ tail).dropWhile (· == byteOf '\t') =
      content.dropWhile (· == byteOf '\t') ++ tail := by
  induction content with
  | nil =>
    cases tail with
    | nil => rfl
    | cons byte tail => exact dropWhile_cons_of_neg (by simpa using ht byte rfl)
  | cons byte content ih =>
    by_cases hb : byte = byteOf '\t'
    · rw [cons_append, dropWhile_cons_of_pos (by simpa using hb),
        dropWhile_cons_of_pos (by simpa using hb), ih]
    · rw [cons_append, dropWhile_cons_of_neg (by simpa using hb),
        dropWhile_cons_of_neg (by simpa using hb)]
      rfl

/-- **The tabs are taken off the physical lines as they stand.** -/
theorem stripTabs_flatten {quoted : Bool} {lines : List Bytes} (h : Physical quoted lines) :
    stripTabs quoted lines.flatten = withoutTabs lines := by
  induction h with
  | @last content hc tail ht =>
    have htail : ∀ byte ∈ tail.head?, byte ≠ byteOf '\t' := by
      rcases ht with rfl | rfl
      · simp
      · simp only [head?_cons, Option.mem_some_iff, forall_eq']
        decide
    rw [flatten_singleton, stripTabs_dropWhile, withoutTabs]
    have hwhole : ∀ kept : Bytes, (if kept = slash ++ [newlineByte] then kept ++ withoutTabs []
        else kept ++ ([] : List Bytes).flatten) = kept := by
      intro kept
      split <;> exact append_nil _
    rw [hwhole, dropWhile_append_tab htail]
    have hhead := head?_dropWhile_not (· == byteOf '\t') content
    have hmem : newlineByte ∉ content.dropWhile (· == byteOf '\t') :=
      fun hmem => hc ((dropWhile_sublist _).subset hmem)
    generalize content.dropWhile (· == byteOf '\t') = kept at hhead hmem
    cases kept with
    | nil =>
      rcases ht with rfl | rfl
      · rfl
      · rfl
    | cons byte kept =>
      have hbyte : byte ≠ byteOf '\t' := by simpa using hhead
      by_cases hcont : quoted = true ∨ byte ≠ byteOf '\\' ∨ (kept ++ tail).head? ≠ some newlineByte
      · exact stripTabs_stop hbyte hcont
      · -- a continuation at the very end
        simp only [not_or, ne_eq, not_not, Bool.not_eq_true] at hcont
        obtain ⟨rfl, rfl, hnl⟩ := hcont
        cases kept with
        | nil =>
          rcases ht with rfl | rfl
          · cases hnl
          · rfl
        | cons next kept =>
          cases hnl
          exact absurd (mem_cons_of_mem _ mem_cons_self) hmem
  | @joined content hc hq hs lines h ih =>
    have htail : ∀ byte ∈ [newlineByte].head?, byte ≠ byteOf '\t' := by
      simp only [head?_cons, Option.mem_some_iff, forall_eq']
      decide
    have hsplit : ∀ byte ∈ (newlineByte :: lines.flatten).head?, byte ≠ byteOf '\t' := htail
    rw [flatten_cons, append_assoc, singleton_append, stripTabs_dropWhile, withoutTabs,
      dropWhile_append_tab htail, dropWhile_append_tab hsplit]
    have hhead := head?_dropWhile_not (· == byteOf '\t') content
    have hmem : newlineByte ∉ content.dropWhile (· == byteOf '\t') :=
      fun hmem => hc ((dropWhile_sublist _).subset hmem)
    have hlast : content.dropWhile (· == byteOf '\t') ≠ [] := by
      intro hnil
      rw [dropWhile_eq_nil_iff] at hnil
      have := hnil _ (mem_of_getLast? hs)
      simp only [beq_iff_eq] at this
      exact absurd this (by decide)
    generalize content.dropWhile (· == byteOf '\t') = kept at hhead hmem hlast
    obtain ⟨byte, kept, rfl⟩ := exists_cons_of_ne_nil hlast
    have hbyte : byte ≠ byteOf '\t' := by simpa using hhead
    subst hq
    by_cases hcont : byte = byteOf '\\' ∧ kept = []
    · obtain ⟨rfl, rfl⟩ := hcont
      rw [if_pos (by rfl), ← ih]
      rfl
    · rw [if_neg]
      · rw [cons_append, stripTabs_stop hbyte]
        · simp
        · by_cases hslash : byte = byteOf '\\'
          · obtain ⟨next, kept, rfl⟩ := exists_cons_of_ne_nil fun hk => hcont ⟨hslash, hk⟩
            refine .inr (.inr ?_)
            rintro ⟨⟩
            exact hmem (mem_cons_of_mem _ mem_cons_self)
          · exact .inr (.inl hslash)
      · intro heq
        apply hcont
        have hkept : byte :: kept = [byteOf '\\'] := append_cancel_right heq
        exact cons.inj hkept

end Lines

/-! ### Reading the lines -/

section Reading

variable {s s' : Run} {unread rest : Bytes}

/-- A run between two tokens, with the bytes on the tape and those the input still has.
The tape was fed whole lines. -/
structure Awaits (s : Run) (unread rest : Bytes) : Prop where
  tape : s.parser.machine.source.unread = unread
  incoming : s.parser.input.incoming = rest.map .byte
  whole : unread = [] ∨ unread.getLast? = some newlineByte ∨ rest = []
  sound : s.parser.machine.source.failure = none
  readable : s.parser.input.failure = none
  depth : s.parser.machine.depth = s.depth
  idle : s.parser.machine.lexer.active = false
  quiet : s.parser.machine.lexer.comment = false
  final : s.parser.machine.source.final = true → rest = []
  ended : s.parser.input.ended = true → rest = []

/-- What reading leaves as it was. -/
structure Leaves (s s' : Run) : Prop where
  frame : s'.frame = s.frame
  parents : s'.parents = s.parents
  documents : s'.documents = s.documents
  failure : s'.parser.failure = s.parser.failure

theorem Leaves.refl (s : Run) : Leaves s s := ⟨rfl, rfl, rfl, rfl⟩

theorem Leaves.trans {s'' : Run} (h : Leaves s s') (h' : Leaves s' s'') : Leaves s s'' :=
  ⟨h'.frame.trans h.frame, h'.parents.trans h.parents, h'.documents.trans h.documents,
    h'.failure.trans h.failure⟩

/-- One line of the input. -/
theorem readLoop_bytes (input : Input) (line : Bytes) (rest : Bytes) (position : Position) :
    ∃ position' ended, input.readLoop line (rest.map .byte) position =
      (if line ++ rest = [] then .eof
        else .line (line ++ lineContent rest ++ (rest.dropWhile (· != newlineByte)).take 1),
        { input with
          incoming := ((rest.dropWhile (· != newlineByte)).drop 1).map .byte,
          position := position', ended }) ∧
      (ended = true → input.ended = true ∨ rest.dropWhile (· != newlineByte) = []) := by
  induction rest generalizing line position with
  | nil =>
    refine ⟨position, true, ?_, fun _ => .inr rfl⟩
    rw [map_nil, Input.readLoop]
    by_cases hl : line = []
    · simp [hl]
    · simp [hl, lineContent]
  | cons byte rest ih =>
    rw [map_cons, Input.readLoop]
    by_cases hb : byte = byteOf '\n'
    · refine ⟨position.advance byte, input.ended, ?_, fun h => .inl h⟩
      have hstop : (byte != newlineByte) = false := by simpa [newlineByte] using hb
      simp [if_pos hb, lineContent, hstop]
    · have hgo : (byte != newlineByte) = true := by simpa [newlineByte] using hb
      obtain ⟨position', ended, hloop, hended⟩ := ih (line ++ [byte]) (position.advance byte)
      refine ⟨position', ended, ?_, ?_⟩
      · rw [if_neg hb, hloop]
        simp [lineContent, hgo]
      · simpa only [dropWhile_cons, hgo, if_true] using hended

/-- A line, or the end of the input, comes onto the empty tape. -/
theorem Awaits.feedLine (h : Awaits s [] rest)
    (hfinal : s.parser.machine.source.final = false) :
    ∃ s' line rest', s.feedLine = (none, s') ∧ rest = line ++ rest' ∧ Awaits s' line rest' ∧
      Leaves s s' ∧ (line = [] → s'.parser.machine.source.final = true) := by
  have hfed : ∀ (input : Input) (result : ReadResult) (bytes : Bytes) (final : Bool) (r : Run),
      r = { s with parser := { s.parser with input, final } }.note (.read result) →
      ∃ machine, r.parser.machine.feed bytes final = (true, machine) ∧
        machine.source.unread = bytes ∧ machine.source.final = final ∧
        machine.source.failure = none ∧ machine.depth = s.depth ∧ machine.lexer.active = false ∧
        machine.lexer.comment = false := by
    rintro input result bytes final r rfl
    let machine : Machine :=
      { source := s.parser.machine.source.compact.append bytes final,
        lexer := s.parser.machine.lexer.feed bytes final,
        parents := s.parser.machine.parents.map (Lexer.feed bytes final) }
    refine ⟨machine, ?_, ?_, rfl, h.sound, ?_, h.idle, h.quiet⟩
    · unfold Machine.feed
      simp only [Run.note, h.sound, hfinal, Option.isSome_none, Bool.false_eq_true, if_false]
      rfl
    · show (s.parser.machine.source.unread ++ bytes).drop 0 = bytes
      rw [h.tape]
      rfl
    · show (s.parser.machine.parents.map _).length = s.depth
      rw [length_map]
      exact h.depth
  have hread : ∃ position ended, s.parser.input.readLine =
      (if rest = [] then .eof
        else .line (lineContent rest ++ (rest.dropWhile (· != newlineByte)).take 1),
        { s.parser.input with
          incoming := ((rest.dropWhile (· != newlineByte)).drop 1).map .byte, position, ended }) ∧
      (ended = true → rest.dropWhile (· != newlineByte) = []) := by
    unfold Input.readLine
    rw [h.readable]
    dsimp only
    by_cases he : s.parser.input.ended = true
    · have hnil := h.ended he
      subst hnil
      have hinput : { s.parser.input with incoming := [], ended := true } = s.parser.input := by
        have hincoming := h.incoming
        rw [map_nil] at hincoming
        rw [← hincoming, ← he]
      rw [if_pos he]
      refine ⟨s.parser.input.position, true, ?_, fun _ => rfl⟩
      exact congrArg (Prod.mk ReadResult.eof) hinput.symm
    · obtain ⟨position, ended, hloop, hended⟩ :=
        readLoop_bytes s.parser.input [] rest s.parser.input.position
      rw [if_neg he, h.incoming, hloop]
      exact ⟨position, ended, rfl, fun h => (hended h).resolve_left he⟩
  obtain ⟨position, ended, hread, hended⟩ := hread
  unfold Run.feedLine
  rw [hread]
  by_cases hnil : rest = []
  · subst hnil
    obtain ⟨machine, hfeed, hunread, hfin, hsound, hdepth, hidle, hquiet⟩ :=
      hfed { s.parser.input with incoming := [], position, ended } .eof [] true _ rfl
    let read : Run :=
      { s with parser := { s.parser with
          input := { s.parser.input with incoming := [], position, ended }, final := true } }
    refine ⟨(read.note (.read .eof)).onMachine machine, [], [], ?_, rfl, ?_, ?_, fun _ => hfin⟩
    rotate_left
    · exact ⟨hunread, rfl, .inl rfl, hsound, h.readable, hdepth, hidle, hquiet, fun _ => rfl,
        fun _ => rfl⟩
    · exact ⟨rfl, rfl, rfl, rfl⟩
    · simp only [if_true]
      dsimp only [Run.note] at hfeed ⊢
      rw [hfeed]
      rfl
  · have happ := lineContent_append rest
    generalize htail : rest.dropWhile (· != newlineByte) = tail at hread hended happ ⊢
    generalize hline : lineContent rest ++ tail.take 1 = line at hread ⊢
    obtain ⟨machine, hfeed, hunread, hfin, hsound, hdepth, hidle, hquiet⟩ :=
      hfed { s.parser.input with incoming := (tail.drop 1).map .byte, position, ended } (.line line)
        line false _ rfl
    have hne : line ≠ [] := by
      rintro rfl
      obtain ⟨hcontent, htake⟩ := append_eq_nil_iff.mp hline
      rw [hcontent, nil_append] at happ
      rw [← happ] at htake
      cases rest with
      | nil => exact hnil rfl
      | cons byte rest => cases htake
    let read : Run :=
      { s with parser := { s.parser with
          input := { s.parser.input with incoming := (tail.drop 1).map .byte, position, ended },
          final := false } }
    refine ⟨(read.note (.read (.line line))).onMachine machine, line, tail.drop 1, ?_, ?_, ?_, ?_,
      fun hempty => absurd hempty hne⟩
    rotate_left 2
    · refine ⟨hunread, rfl, ?_, hsound, h.readable, hdepth, hidle, hquiet, ?_, ?_⟩
      · cases tail with
        | nil => exact .inr (.inr rfl)
        | cons newline tail =>
          rw [← hline, head_of_dropWhile htail]
          exact .inr (.inl (by simp))
      · intro hfinal'
        have hclosed : machine.source.final = true := hfinal'
        rw [hfin] at hclosed
        exact absurd hclosed Bool.false_ne_true
      · intro he
        rw [hended he]
        rfl
    · exact ⟨rfl, rfl, rfl, rfl⟩
    · simp only [hnil, if_false]
      dsimp only [Run.note] at hfeed ⊢
      rw [hfeed]
    · rw [← hline, append_assoc, take_append_drop]
      exact happ

/-- A line is taken off the tape. -/
theorem Awaits.skipLine {line : Bytes} (h : Awaits s (line ++ unread) rest) (h0 : NulFree line)
    (hw : unread = [] ∨ unread.getLast? = some newlineByte ∨ rest = []) :
    ∃ s', s.skipLine line.length = (none, s') ∧ Awaits s' unread rest ∧ Leaves s s' ∧
      s'.parser.machine.source.final = s.parser.machine.source.final := by
  obtain ⟨machine, hconsume, hunread⟩ :=
    @consume_total (s.parser.machine.onLexer fun l => { l with last := none }) line unread h.tape h0
  have hreads := consume_reads hconsume
  obtain ⟨raw, position, hlexer⟩ := consume_lexer _ hconsume
  have hskip : s.parser.machine.skipRaw s.depth line.length = (true, machine) := by
    unfold Machine.skipRaw
    have hlen : ¬ s.parser.machine.source.unread.length < line.length := by
      rw [h.tape, length_append]
      omega
    simp only [h.sound, h.depth, h.idle, h.quiet, hlen, Option.isSome_none, Bool.false_eq_true,
      if_false, ne_eq, not_true_eq_false, or_self, hconsume]
  refine ⟨(s.onMachine machine).note (.skipped (s.parser.machine.source.unread.take line.length)), ?_,
    ?_, ?_, hreads.final⟩
  · unfold Run.skipLine
    rw [hskip]
  · refine ⟨hunread, h.incoming, hw, hreads.failure.trans h.sound, h.readable,
      hreads.parents.trans h.depth, ?_, ?_, ?_, h.ended⟩
    · show machine.lexer.active = false
      rw [hlexer]
      exact h.idle
    · show machine.lexer.comment = false
      rw [hlexer]
      exact h.quiet
    · intro hfinal
      exact h.final (hreads.final.symm.trans hfinal)
  · exact ⟨rfl, rfl, rfl, rfl⟩

/-! ### Collecting -/

variable {index rounds : ℕ} {document : Document} {c : Collecting}

/-- What the collector does with a logical line it has read. -/
def finishLine (index : ℕ) (document : Document) (n : ℕ) (c : Collecting) : P Unit :=
  if delimits document c.logical = true then
    Program.modify (Run.setDocument index fun document =>
      { document with body := some c.body, bodyStop := c.lineStart })
  else
    documentLoop d index document false n
      { lineStart := c.lineStart,
        body := c.body ++
          documentLine c.line (document.operatorKind == .dlessDash) document.delimiterQuoted }

/-- How a collection ends that the input is too short for. -/
structure Unfinished (document : Document) (s' : Run) : Prop where
  failure : s'.parser.failure =
    some { message := ascii "unterminated here-document", position := document.operandPosition }
  result : s'.parser.failureResult = .incomplete

/-- The end of the input comes before the delimiter. -/
theorem failAt_unfinished (h : Leaves s s') (hf : s.parser.failure = none) :
    Unfinished document
      (s'.failAt .incomplete (ascii "unterminated here-document") 0 document.operandPosition) := by
  have hnone : s'.parser.failure.isSome = false := by rw [h.failure, hf]; rfl
  unfold Run.failAt
  rw [hnone]
  have hresult : ∀ r : Run, r.parser.failureResult = .incomplete → r.saveRecovery = r := by
    intro r hr
    unfold Run.saveRecovery
    rw [hr]
    simp
  rw [if_neg Bool.false_ne_true, hresult _ rfl]
  exact ⟨rfl, rfl⟩

/-- The empty tape is fed. -/
theorem documentLoop_feed (n : ℕ) (hempty : s.parser.machine.source.unread = [])
    (hfinal : s.parser.machine.source.final = false) (hfeed : s.feedLine = (none, s')) :
    (documentLoop d index document false (n + 1) c).run s =
      (documentLoop d index document false n c).run s' := by
  have hor : (orAdopt Run.feedLine).run s = (.ok (), s') := by
    rw [orAdopt, Program.run_bind_ok (Program.run_update _ _), hfeed]
    rfl
  rw [documentLoop, Program.run_bind_ok (Program.run_gets _ _)]
  simp only [id, hempty, isEmpty_nil, if_true, hfinal, Bool.false_eq_true, if_false]
  exact Program.run_bind_ok hor

/-- The input ends. -/
theorem documentLoop_end (n : ℕ) (hempty : s.parser.machine.source.unread = [])
    (hfinal : s.parser.machine.source.final = true) :
    (documentLoop d index document false (n + 1) c).run s =
      (.error .failed,
        s.failAt .incomplete (ascii "unterminated here-document") 0 document.operandPosition) := by
  rw [documentLoop, Program.run_bind_ok (Program.run_gets _ _)]
  simp only [id, hempty, isEmpty_nil, if_true, hfinal]
  rfl

end Reading

/-! ### A physical line -/

section PhysicalLine

variable {s s' : Run} {text content tail rest : Bytes} {index : ℕ} {document : Document}
  {c : Collecting}

/-- A physical line with its newline, or at the end of the input without it, is taken
off the tape. -/
theorem documentLoop_take (n : ℕ) (hne : content ++ tail ≠ []) (hc : newlineByte ∉ content)
    (ht : tail = [newlineByte] ∨ tail = [] ∧ rest = [])
    (htape : s.parser.machine.source.unread = content ++ tail ++ rest)
    (hskip : s.skipLine (content ++ tail).length = (none, s')) :
    ∃ start, (documentLoop d index document false (n + 1) c).run s =
      if document.delimiterQuoted = false ∧ tail ≠ [] ∧ closingSlashes d content % 2 = 1 then
        (documentLoop d index document false n
          { c with lineStart := start, line := c.line ++ (content ++ tail),
                   logical := c.logical ++ content.dropLast }).run s'
      else
        (finishLine (d := d) index document n
          { c with lineStart := start, line := c.line ++ (content ++ tail),
                   logical := c.logical ++ content }).run s' := by
  have hgo : ∀ byte ∈ content, (byte != byteOf '\n') = true := by
    intro byte hbyte
    rw [bne_iff_ne]
    rintro rfl
    exact hc hbyte
  have hcontent : (content ++ tail ++ rest).takeWhile (· != byteOf '\n') = content := by
    rw [append_assoc, takeWhile_append_of_pos hgo]
    rcases ht with rfl | ⟨rfl, rfl⟩
    · simp [newlineByte]
    · simp
  have hlength : (if content.length < (content ++ tail ++ rest).length then content.length + 1
      else content.length) = (content ++ tail).length := by
    rcases ht with rfl | ⟨rfl, rfl⟩
    · simp
    · simp
  have hor : (orAdopt (Run.skipLine (content ++ tail).length)).run s = (.ok (), s') := by
    rw [orAdopt, Program.run_bind_ok (Program.run_update _ _), hskip]
    rfl
  have hsome : (content ++ tail ++ rest).isEmpty = false := by
    simpa using fun h₁ h₂ => absurd (by rw [h₁, h₂]; rfl) hne
  have hbackslashes : ((if (!document.delimiterQuoted &&
      decide (content.length < (content ++ tail).length)) = true then trailingBackslashes d content 0
      else 0) % 2 != 0) =
        decide (document.delimiterQuoted = false ∧ tail ≠ [] ∧ closingSlashes d content % 2 = 1) := by
    rw [trailingBackslashes_closing, Bool.eq_iff_iff]
    have hlt : content.length < (content ++ tail).length ↔ tail ≠ [] := by
      rw [length_append, ← length_pos_iff]
      omega
    simp only [hlt, bne_iff_ne, decide_eq_true_eq, Bool.and_eq_true, Bool.not_eq_true']
    split <;> simp_all
  refine ⟨if c.line.isEmpty then s.parser.machine.source.position else c.lineStart, ?_⟩
  rw [documentLoop, Program.run_bind_ok (Program.run_gets _ _)]
  simp only [id, htape, hsome, Bool.false_eq_true, if_false, hcontent, hlength, hbackslashes]
  rw [Program.run_bind_ok hor, take_left]
  by_cases hjoined : document.delimiterQuoted = false ∧ tail ≠ [] ∧ closingSlashes d content % 2 = 1
  · simp only [hjoined, decide_true, if_true, and_self, ne_eq, not_false_eq_true,
      dropLast_eq_take]
  · simp only [hjoined, decide_false, Bool.false_eq_true, if_false, Nat.sub_zero, take_length,
      finishLine, delimits, beq_iff_eq]

/-- The first physical line of the text is on a tape that is not empty. -/
theorem Awaits.line {unread : Bytes} (h : Awaits s unread rest) (hne : unread ≠ []) :
    ∃ tail unread', unread = lineContent (unread ++ rest) ++ tail ++ unread' ∧
      (unread ++ rest).dropWhile (· != newlineByte) = tail ++ (unread' ++ rest) ∧
      (tail = [newlineByte] ∨ tail = [] ∧ unread' = [] ∧ rest = []) ∧
      (unread' = [] ∨ unread'.getLast? = some newlineByte ∨ rest = []) := by
  have happ := lineContent_append unread
  cases hdrop : unread.dropWhile (· != newlineByte) with
  | nil =>
    rw [hdrop, append_nil] at happ
    have hrest : rest = [] := by
      rcases h.whole with hnil | hlast | hrest
      · exact absurd hnil hne
      · refine absurd (mem_of_getLast? hlast) ?_
        rw [happ]
        exact newline_not_mem_lineContent unread
      · exact hrest
    subst hrest
    rw [append_nil, hdrop]
    exact ⟨[], [], by simpa using happ, rfl, .inr ⟨rfl, rfl, rfl⟩, .inl rfl⟩
  | cons newline unread' =>
    rw [hdrop] at happ
    obtain rfl := head_of_dropWhile hdrop
    have hgo : ∀ byte ∈ lineContent unread, (byte != newlineByte) = true :=
      fun byte hbyte => @List.mem_takeWhile_imp _ (· != newlineByte) _ _ hbyte
    have htext : unread ++ rest = lineContent unread ++ (newlineByte :: (unread' ++ rest)) := by
      conv_lhs => rw [happ]
      simp
    have hcontent : lineContent (unread ++ rest) = lineContent unread := by
      rw [htext, lineContent, takeWhile_append_of_pos hgo, takeWhile_cons_of_neg (by simp),
        append_nil]
    refine ⟨[newlineByte], unread', ?_, ?_, .inl rfl, ?_⟩
    · rw [hcontent]
      conv_lhs => rw [happ]
      simp
    · rw [htext, dropWhile_append_of_pos hgo, dropWhile_cons_of_neg (by simp)]
      rfl
    · by_cases hnil : unread' = []
      · exact .inl hnil
      · rcases h.whole with hempty | hlast | hrest
        · exact absurd hempty hne
        · rw [happ, getLast?_append_of_ne_nil _ (cons_ne_nil _ _)] at hlast
          obtain ⟨byte, more, rfl⟩ := exists_cons_of_ne_nil hnil
          exact .inr (.inl (by rwa [getLast?_cons_cons] at hlast))
        · exact .inr (.inr hrest)

/-- The first logical line, by its first physical line. -/
theorem logicalLine_cut {after : Bytes} {quoted : Bool} (hne : text ≠ [])
    (hdrop : text.dropWhile (· != newlineByte) = tail ++ after)
    (htail : tail = [newlineByte] ∨ tail = [] ∧ after = []) :
    logicalLine d quoted text =
      if quoted = false ∧ tail ≠ [] ∧ closingSlashes d (lineContent text) % 2 = 1 then
        (logicalLine d quoted after).map fun line =>
          ((lineContent text ++ tail) :: line.1, (lineContent text).dropLast ++ line.2.1, line.2.2)
      else some ([lineContent text ++ tail], lineContent text, after) := by
  obtain ⟨byte, more, rfl⟩ := exists_cons_of_ne_nil hne
  rw [logicalLine]
  split
  · next hnil =>
    rw [hdrop] at hnil
    obtain ⟨rfl, rfl⟩ := append_eq_nil_iff.mp hnil
    rw [if_neg (by simp), append_nil]
  · next newline after' hsome =>
    rw [hdrop] at hsome
    rcases htail with rfl | ⟨rfl, rfl⟩
    · cases hsome
      simp only [ne_eq, reduceCtorEq, not_false_eq_true, true_and]
      rfl
    · cases hsome

/-- An empty tape is fed first, unless the input has ended. -/
theorem Awaits.ready {unread : Bytes} (h : Awaits s unread rest) (n : ℕ) (c : Collecting) :
    ∃ s' unread' rest' n', n ≤ n' ∧ unread' ++ rest' = unread ++ rest ∧ Awaits s' unread' rest' ∧
      Leaves s s' ∧ (unread' = [] → s'.parser.machine.source.final = true) ∧
      (documentLoop d index document false (n + 1) c).run s =
        (documentLoop d index document false n' c).run s' := by
  by_cases hready : unread = [] ∧ s.parser.machine.source.final = false
  · obtain ⟨rfl, hfinal⟩ := hready
    obtain ⟨s', line, rest', hfeed, hrest, hawaits, hleaves, hend⟩ := h.feedLine hfinal
    exact ⟨s', line, rest', n, Nat.le_refl _, hrest.symm, hawaits, hleaves, hend,
      documentLoop_feed n h.tape hfinal hfeed⟩
  · refine ⟨s, unread, rest, n + 1, Nat.le_succ _, rfl, h, .refl s, fun hnil => ?_, rfl⟩
    by_contra hfinal
    exact hready ⟨hnil, by simpa using hfinal⟩

/-- **A logical line is read**, or the input ends before it does. -/
theorem documentLoop_line {unread : Bytes} (h : Awaits s unread rest)
    (hf : s.parser.failure = none) (h0 : NulFree (unread ++ rest)) {n : ℕ}
    (hn : 2 * (unread ++ rest).length + 2 ≤ n) (c : Collecting) :
    (logicalLine d document.delimiterQuoted (unread ++ rest) = none →
      ∃ s', (documentLoop d index document false n c).run s = (.error .failed, s') ∧
        Unfinished document s') ∧
    ∀ lines said after, logicalLine d document.delimiterQuoted (unread ++ rest) =
        some (lines, said, after) →
      ∃ n' start s' unread' rest', after = unread' ++ rest' ∧ 2 * after.length + 2 ≤ n' ∧
        Awaits s' unread' rest' ∧ Leaves s s' ∧
        (documentLoop d index document false n c).run s =
          (finishLine (d := d) index document n'
            { c with lineStart := start, line := c.line ++ lines.flatten,
                     logical := c.logical ++ said }).run s' := by
  -- a physical line at a time
  induction hlen : (unread ++ rest).length using Nat.strong_induction_on
    generalizing s unread rest n c with
  | h length ih =>
    obtain ⟨n, rfl⟩ := Nat.exists_eq_add_of_le' (show 2 ≤ n by omega)
    obtain ⟨s₁, unread₁, rest₁, n', hn', htext, hawaits, hleaves, hend, hrun⟩ :=
      @Awaits.ready d s rest index document unread h (n + 1) c
    obtain ⟨k, rfl⟩ := Nat.exists_eq_add_of_le' (show 1 ≤ n' by omega)
    rw [← htext] at h0 hn hlen ⊢
    by_cases hempty : unread₁ = []
    · subst hempty
      obtain rfl := hawaits.final (hend rfl)
      refine ⟨fun _ => ⟨_, hrun.trans (documentLoop_end k hawaits.tape (hend rfl)),
        failAt_unfinished hleaves hf⟩, fun lines said after hline => ?_⟩
      rw [append_nil, logicalLine] at hline
      cases hline
    · obtain ⟨tail, unread₂, hunread, hdrop, htail, hwhole⟩ := hawaits.line hempty
      generalize hcontent : lineContent (unread₁ ++ rest₁) = content at hunread
      have hawaits' := hawaits
      rw [hunread] at hawaits'
      have hnul : NulFree (content ++ tail) := by
        intro hmem
        apply h0
        rw [hunread]
        simp only [mem_append] at hmem ⊢
        tauto
      obtain ⟨s₂, hskip, hawaits₂, hleaves₂, -⟩ := hawaits'.skipLine hnul hwhole
      have hne : content ++ tail ≠ [] := by
        intro hnil
        rcases htail with rfl | ⟨-, rfl, -⟩
        · simp at hnil
        · rw [hunread, hnil] at hempty
          exact hempty rfl
      have hnewline : newlineByte ∉ content := hcontent ▸ newline_not_mem_lineContent _
      have htape := hawaits.tape
      rw [hunread] at htape
      obtain ⟨start, htake⟩ := @documentLoop_take d s₁ s₂ content tail unread₂ index document c k hne
        hnewline (htail.imp id fun h => ⟨h.1, h.2.1⟩) htape hskip
      have hcut := @logicalLine_cut d (unread₁ ++ rest₁) tail (unread₂ ++ rest₁) document.delimiterQuoted
        (fun hnil => hempty (append_eq_nil_iff.mp hnil).1) hdrop
        (htail.imp id fun h => ⟨h.1, by rw [h.2.1, h.2.2]; rfl⟩)
      rw [hcontent] at hcut
      have hshort : (unread₂ ++ rest₁).length < (unread₁ ++ rest₁).length := by
        have := length_pos_iff.mpr hne
        rw [hunread]
        simp only [length_append] at this ⊢
        omega
      by_cases hjoined : document.delimiterQuoted = false ∧ tail ≠ [] ∧
          closingSlashes d content % 2 = 1
      · rw [if_pos hjoined] at htake hcut
        have hfailure : s₂.parser.failure = none := by
          rw [hleaves₂.failure, hleaves.failure, hf]
        have hnul₂ : NulFree (unread₂ ++ rest₁) := by
          intro hmem
          apply h0
          rw [hunread]
          simp only [mem_append] at hmem ⊢
          tauto
        obtain ⟨hnone, hsome⟩ := ih _ (by omega) hawaits₂ hfailure hnul₂ (n := k) (by omega)
          { c with lineStart := start, line := c.line ++ (content ++ tail),
                   logical := c.logical ++ content.dropLast } rfl
        rw [hcut]
        refine ⟨fun hnil => ?_, fun lines said after hline => ?_⟩
        · obtain ⟨s', hloop, hunfinished⟩ := hnone (Option.map_eq_none_iff.mp hnil)
          exact ⟨s', (hrun.trans htake).trans hloop, hunfinished⟩
        · obtain ⟨⟨lines', said', after'⟩, hline', heq⟩ := Option.map_eq_some_iff.mp hline
          cases heq
          obtain ⟨n', start', s', unread', rest', hafter, hn', hawaits', hleaves', hloop⟩ :=
            hsome lines' said' after' hline'
          refine ⟨n', start', s', unread', rest', hafter, hn', hawaits',
            (hleaves.trans hleaves₂).trans hleaves', (hrun.trans htake).trans ?_⟩
          simp only [hloop, flatten_cons, append_assoc]
      · rw [if_neg hjoined] at htake hcut
        rw [hcut]
        refine ⟨fun hnil => (by cases hnil), fun lines said after hline => ?_⟩
        cases hline
        exact ⟨k, start, s₂, unread₂, rest₁, rfl, by omega, hawaits₂, hleaves.trans hleaves₂,
          by rw [hrun, htake, flatten_singleton]⟩

end PhysicalLine

/-! ### A document -/

section Documents

variable {s s' : Run} {unread rest : Bytes} {index : ℕ} {document : Document}

theorem Awaits.congr (h : Awaits s unread rest) (hp : s'.parser = s.parser)
    (hd : s'.parents = s.parents) : Awaits s' unread rest := by
  have hdepth : s'.depth = s.depth := congrArg length hd
  refine ⟨?_, ?_, h.whole, ?_, ?_, ?_, ?_, ?_, ?_, ?_⟩ <;> rw [hp]
  · exact h.tape
  · exact h.incoming
  · exact h.sound
  · exact h.readable
  · exact h.depth.trans hdepth.symm
  · exact h.idle
  · exact h.quiet
  · exact h.final
  · exact h.ended

/-- A line of the body, as the collector appends it. -/
theorem documentLine_bodyLines {lines : List Bytes} (h : Physical document.delimiterQuoted lines) :
    documentLine lines.flatten (document.operatorKind == .dlessDash) document.delimiterQuoted =
      bodyLines document lines := by
  unfold documentLine bodyLines
  by_cases hstrip : document.operatorKind = .dlessDash
  · simp [hstrip, stripTabs_flatten h]
  · simp [hstrip]

/-- **A body is read**, or the input ends before its delimiter. -/
theorem documentLoop_body (h : Awaits s unread rest) (hf : s.parser.failure = none)
    (h0 : NulFree (unread ++ rest)) {n : ℕ} (hn : 2 * (unread ++ rest).length + 2 ≤ n)
    (start : Position) (before : Bytes) :
    (documentBody d document (unread ++ rest) = none →
      ∃ s', (documentLoop d index document false n { lineStart := start, body := before }).run s =
        (.error .failed, s') ∧ Unfinished document s') ∧
    ∀ body after, documentBody d document (unread ++ rest) = some (body, after) →
      ∃ stop s' unread' rest', after = unread' ++ rest' ∧ Awaits s' unread' rest' ∧
        s'.frame = s.frame ∧ s'.parser.failure = none ∧
        s'.documents = s.documents.modify index (fun document =>
          { document with body := some (before ++ body), bodyStop := stop }) ∧
        (documentLoop d index document false n { lineStart := start, body := before }).run s =
          (.ok (), s') := by
  -- a logical line at a time
  induction hlen : (unread ++ rest).length using Nat.strong_induction_on
    generalizing s unread rest n start before with
  | h length ih =>
    obtain ⟨hnone, hsome⟩ := @documentLoop_line d s rest index document unread h hf h0 n hn
      { lineStart := start, body := before }
    rw [documentBody]
    split
    · next hline =>
      obtain ⟨s', hrun, hunfinished⟩ := hnone hline
      exact ⟨fun _ => ⟨s', hrun, hunfinished⟩, fun body after hbody => by cases hbody⟩
    · next lines said after hline =>
      obtain ⟨n', start', s', unread', rest', rfl, hn', hawaits, hleaves, hrun⟩ :=
        hsome lines said after hline
      have hrun : (documentLoop d index document false n { lineStart := start, body := before }).run s =
          (finishLine (d := d) index document n'
            { lineStart := start', body := before, line := lines.flatten, logical := said }).run s' :=
        hrun
      obtain ⟨hphysical, htext⟩ := logicalLine_physical hline
      have hshort := length_logicalLine hline
      by_cases hdelimits : delimits document said = true
      · rw [if_pos hdelimits]
        refine ⟨fun hnil => (by cases hnil), fun body after hbody => ?_⟩
        cases hbody
        refine ⟨start', s'.setDocument index fun document =>
          { document with body := some before, bodyStop := start' }, unread', rest', rfl,
          hawaits.congr rfl rfl, hleaves.frame, hleaves.failure.trans hf, ?_, ?_⟩
        · rw [append_nil, Run.setDocument, hleaves.documents]
        · rw [hrun, finishLine, if_pos hdelimits]
          rfl
      · rw [if_neg hdelimits]
        have hnul : NulFree (unread' ++ rest') := by
          intro hmem
          apply h0
          rw [htext]
          exact mem_append_right _ hmem
        obtain ⟨hnone', hsome'⟩ := ih _ (by omega) hawaits (hleaves.failure.trans hf) hnul
          hn' start' (before ++ bodyLines document lines) rfl
        rw [finishLine, if_neg hdelimits, documentLine_bodyLines hphysical] at hrun
        rw [hrun]
        refine ⟨fun hnil => hnone' (Option.map_eq_none_iff.mp hnil), fun body after hbody => ?_⟩
        obtain ⟨⟨body', after'⟩, hbody', heq⟩ := Option.map_eq_some_iff.mp hbody
        cases heq
        obtain ⟨stop, s'', unread'', rest'', hafter, hawaits', hframe, hfailure, hdocuments, hloop⟩ :=
          hsome' body' after' hbody'
        refine ⟨stop, s'', unread'', rest'', hafter, hawaits', hframe.trans hleaves.frame, hfailure, ?_,
          hloop⟩
        rw [hdocuments, hleaves.documents, append_assoc]

/-! ### The documents of a line -/

/-- Where a body was put does not matter to the text it is cut from. -/
theorem documentBody_congr {document' : Document} (hk : document'.operatorKind = document.operatorKind)
    (hd : document'.delimiter = document.delimiter)
    (hq : document'.delimiterQuoted = document.delimiterQuoted) (text : Bytes) :
    documentBody d document' text = documentBody d document text := by
  induction hlen : text.length using Nat.strong_induction_on generalizing text with
  | h length ih =>
    have hdelimits : ∀ said, delimits document' said = delimits document said := by
      intro said
      rw [delimits, delimits, hk, hd]
    have hlines : ∀ lines, bodyLines document' lines = bodyLines document lines := by
      intro lines
      rw [bodyLines, bodyLines, hk]
    rw [documentBody, documentBody, hq]
    split
    · rfl
    · next lines said after hline =>
      rw [hdelimits, hlines, ih _ (hlen ▸ length_logicalLine hline) after rfl]

/-- The rest of a text behind a body is the end of the text. -/
theorem documentBody_suffix {text body after : Bytes}
    (h : documentBody d document text = some (body, after)) : after <:+ text := by
  induction hlen : text.length using Nat.strong_induction_on generalizing text body with
  | h length ih =>
    rw [documentBody] at h
    split at h
    · cases h
    · next lines said rest hline =>
      have hrest : rest <:+ text := by
        rw [(logicalLine_physical hline).2]
        exact suffix_append _ _
      split at h
      · cases h
        exact hrest
      · obtain ⟨⟨body', after'⟩, hbody, heq⟩ := Option.map_eq_some_iff.mp h
        cases heq
        exact (ih _ (hlen ▸ length_logicalLine hline) hbody rfl).trans hrest

/-- Bodies were put into the documents of some places, and nothing else changed. -/
structure Filled (documents : List Document) (indices : List ℕ) (bodies : List Bytes)
    (documents' : List Document) : Prop where
  count : bodies.length = indices.length
  bodies : ∀ index body, (index, body) ∈ indices.zip bodies → ∃ start stop,
    documents'[index]? = documents[index]?.map fun document =>
      { document with body := some body, bodyStart := start, bodyStop := stop }
  others : ∀ index, index ∉ indices → documents'[index]? = documents[index]?

/-- **The bodies of a line are read**, or the input ends before the last delimiter. -/
theorem collectLoop_bodies {rounds : ℕ} (indices : List ℕ) (hnodup : indices.Nodup)
    (hvalid : ∀ index ∈ indices, index < s.documents.length) (h : Awaits s unread rest)
    (hf : s.parser.failure = none) (h0 : NulFree (unread ++ rest))
    (hrounds : 2 * (unread ++ rest).length + 2 ≤ rounds) :
    (documentBodies d (indices.filterMap fun i => s.documents[i]?) (unread ++ rest) = none →
      ∃ s' index document, s.documents[index]? = some document ∧ index ∈ indices ∧
        (collectLoop d rounds false indices).run s = (.error .failed, s') ∧ Unfinished document s') ∧
    ∀ bodies after,
      documentBodies d (indices.filterMap fun i => s.documents[i]?) (unread ++ rest) =
          some (bodies, after) →
        ∃ s' unread' rest', after = unread' ++ rest' ∧ Awaits s' unread' rest' ∧
          s'.frame = s.frame ∧ Filled s.documents indices bodies s'.documents ∧
          (collectLoop d rounds false indices).run s = (.ok (), s') := by
  induction indices generalizing s unread rest with
  | nil =>
    refine ⟨fun hnil => (by cases hnil), fun bodies after hbodies => ?_⟩
    cases hbodies
    exact ⟨s, unread, rest, rfl, h, rfl, ⟨rfl, by simp, fun _ _ => rfl⟩, rfl⟩
  | cons index indices ih =>
    obtain ⟨hfresh, hnodup⟩ := nodup_cons.mp hnodup
    have hother : ∀ i ∈ indices, i ≠ index := by
      rintro i hi rfl
      exact hfresh hi
    have hlt := hvalid index mem_cons_self
    obtain ⟨document, hget⟩ : ∃ document, s.documents[index]? = some document :=
      ⟨_, getElem?_eq_getElem hlt⟩
    -- the document, with the place where its body begins
    obtain ⟨begun, hbegun⟩ : ∃ begun : Document, begun = { document with bodyStart := s.position } :=
      ⟨_, rfl⟩
    let s₁ := s.setDocument index fun document => { document with bodyStart := s.position }
    have hget₁ : s₁.documents[index]? = some begun := by
      show (s.documents.modify index _)[index]? = _
      rw [getElem?_modify_eq, hget, hbegun]
      rfl
    have hstep : (collectLoop d rounds false (index :: indices)).run s =
        (documentLoop d index begun false rounds { lineStart := s.position } >>=
          fun _ => collectLoop d rounds false indices).run s₁ := by
      rw [collectLoop, position, Program.run_bind_ok (Program.run_gets _ _),
        Program.run_bind_ok (Program.run_modify _ _), Program.run_bind_ok (Program.run_gets _ _)]
      simp only [id]
      rw [show (Run.setDocument index (fun document => { document with bodyStart := s.position }) s) = s₁
        from rfl, hget₁]
    have hcut : documentBody d begun (unread ++ rest) = documentBody d document (unread ++ rest) :=
      documentBody_congr (by rw [hbegun]) (by rw [hbegun]) (by rw [hbegun]) _
    obtain ⟨hnone, hsome⟩ := @documentLoop_body d s₁ unread rest index begun
      (h.congr rfl rfl) hf h0 rounds hrounds s.position []
    rw [hcut] at hnone hsome
    rw [filterMap_cons_some hget, documentBodies]
    cases hbody : documentBody d document (unread ++ rest) with
    | none =>
      refine ⟨fun _ => ?_, fun bodies after hbodies => (by cases hbodies)⟩
      obtain ⟨s', hrun, hunfinished⟩ := hnone hbody
      refine ⟨s', index, document, hget, mem_cons_self, ?_, ?_⟩
      · rw [hstep, Program.run_bind_error hrun]
      · rw [hbegun] at hunfinished
        exact ⟨hunfinished.failure, hunfinished.result⟩
    | some found =>
      obtain ⟨body, after⟩ := found
      obtain ⟨stop, s₂, unread₂, rest₂, rfl, hawaits, hframe, hfailure, hdocuments, hrun⟩ :=
        hsome body after hbody
      have hget₂ : ∀ i, s₂.documents[i]? = if i = index then
          s.documents[i]?.map fun document =>
            { document with body := some body, bodyStart := s.position, bodyStop := stop }
          else s.documents[i]? := by
        intro i
        rw [hdocuments]
        show ((s.documents.modify index _).modify index _)[i]? = _
        by_cases hi : i = index
        · subst hi
          rw [getElem?_modify_eq, getElem?_modify_eq, if_pos rfl]
          cases s.documents[i]? <;> rfl
        · rw [if_neg hi]
          simp [Ne.symm hi]
      have hothers : (indices.filterMap fun i => s₂.documents[i]?) =
          indices.filterMap fun i => s.documents[i]? := by
        refine filterMap_congr fun i hi => ?_
        rw [hget₂, if_neg (hother i hi)]
      have hlength : s₂.documents.length = s.documents.length := by
        rw [hdocuments]
        show ((s.documents.modify index _).modify index _).length = _
        rw [length_modify, length_modify]
      have hsuffix := documentBody_suffix hbody
      have hshort := hsuffix.length_le
      obtain ⟨hnone', hsome'⟩ := ih hnodup
        (fun i hi => hlength ▸ hvalid i (mem_cons_of_mem _ hi)) hawaits hfailure
        (fun hmem => h0 (hsuffix.subset hmem)) (by omega)
      rw [hothers] at hnone' hsome'
      rw [Option.bind_some]
      refine ⟨fun hnil => ?_, fun bodies after hbodies => ?_⟩
      · obtain ⟨s', i, later, hlater, hi, hloop, hunfinished⟩ :=
          hnone' (Option.map_eq_none_iff.mp hnil)
        rw [hget₂, if_neg (hother i hi)] at hlater
        refine ⟨s', i, later, hlater, mem_cons_of_mem _ hi, ?_, hunfinished⟩
        rw [hstep, Program.run_bind_ok hrun, hloop]
      · obtain ⟨⟨bodies', after'⟩, hbodies', heq⟩ := Option.map_eq_some_iff.mp hbodies
        cases heq
        obtain ⟨s', unread', rest', hafter, hawaits', hframe', hfilled, hloop⟩ :=
          hsome' bodies' after' hbodies'
        refine ⟨s', unread', rest', hafter, hawaits', hframe'.trans hframe, ?_, ?_⟩
        · refine ⟨by simp [hfilled.count], fun i body' hmem => ?_, fun i hi => ?_⟩
          · rw [zip_cons_cons] at hmem
            rcases mem_cons.mp hmem with heq | hmem
            · cases heq
              refine ⟨s.position, stop, ?_⟩
              rw [hfilled.others index hfresh, hget₂, if_pos rfl]
            · obtain ⟨start, stop', hbody'⟩ := hfilled.bodies i body' hmem
              refine ⟨start, stop', ?_⟩
              rw [hbody', hget₂, if_neg (hother i (of_mem_zip hmem).1)]
          · rw [mem_cons, not_or] at hi
            rw [hfilled.others i hi.2, hget₂, if_neg hi.1]
        · rw [hstep, Program.run_bind_ok hrun, hloop]

end Documents

/-- **The collector reads the bodies the reference cuts.**  Every document of the frame
gets its body, and the tape and the input together go on behind the last delimiter; if
the text ends before that, the parse is incomplete. -/
theorem collectDocuments_bodies (d : Decoder) (rounds : ℕ) (s : Run) (unread rest : Bytes)
    (h : Awaits s unread rest) (hf : s.parser.failure = none) (hnodup : s.frame.documents.Nodup)
    (hvalid : ∀ index ∈ s.frame.documents, index < s.documents.length)
    (h0 : NulFree (unread ++ rest)) (hrounds : 2 * (unread ++ rest).length + 2 ≤ rounds) :
    match documentBodies d (s.documentsOf s.frame) (unread ++ rest) with
    | some (bodies, after) =>
      ∃ s' unread' rest', (collectDocuments d rounds false).run s = (.ok (), s') ∧
        after = unread' ++ rest' ∧ Awaits s' unread' rest' ∧ s'.frame.documents = [] ∧
        Filled s.documents s.frame.documents bodies s'.documents
    | none =>
      ∃ s' index document, (collectDocuments d rounds false).run s = (.error .failed, s') ∧
        index ∈ s.frame.documents ∧ s.documents[index]? = some document ∧ Unfinished document s' := by
  obtain ⟨hnone, hsome⟩ := @collectLoop_bodies d s unread rest rounds s.frame.documents hnodup hvalid
    h hf h0 hrounds
  have hstart : (collectDocuments d rounds false).run s =
      (collectLoop d rounds false s.frame.documents >>= fun _ => Program.modify Run.clearDocuments).run
        s := rfl
  split
  · next bodies after hbodies =>
    obtain ⟨s', unread', rest', hafter, hawaits, -, hfilled, hrun⟩ := hsome bodies after hbodies
    refine ⟨s'.clearDocuments, unread', rest', ?_, hafter, hawaits.congr rfl rfl, rfl, hfilled⟩
    rw [hstart, Program.run_bind_ok hrun]
    rfl
  · next hbodies =>
    obtain ⟨s', index, document, hget, hmem, hrun, hunfinished⟩ := hnone hbodies
    refine ⟨s', index, document, ?_, hmem, hget, hunfinished⟩
    rw [hstart, Program.run_bind_error hrun]

/-- A line with `<<E` and `<<-F` behind it, at the beginning of the input. -/
def documentStart (text : Bytes) : Run where
  parser := { input := { incoming := text.map .byte }, machine := Machine.create [] { line := 1, column := 1 } false }
  frame := { documents := [0, 1] }
  documents := [⟨.dless, ascii "E", false, {}, none, {}, {}⟩, ⟨.dlessDash, ascii "F", false, {}, none, {}, {}⟩]

/-- Two bodies: a continued line before the delimiter `E`, and a tab before `c`. -/
theorem collectDocuments_bodies_line :
    ∃ s', (collectDocuments .posix 40 false).run (documentStart (ascii "a\\\nE\nE\n\tc\n\tF\nd")) =
        (.ok (), s') ∧
      s'.documents[0]?.bind Document.body = some (ascii "a\\\nE\n") ∧
      s'.documents[1]?.bind Document.body = some (ascii "c\n") := by
  have hcollect := collectDocuments_bodies .posix 40 (documentStart (ascii "a\\\nE\nE\n\tc\n\tF\nd")) []
    (ascii "a\\\nE\nE\n\tc\n\tF\nd")
    ⟨rfl, rfl, .inl rfl, rfl, rfl, rfl, rfl, rfl, fun h => (by cases h), fun h => (by cases h)⟩ rfl
    (by decide) (by decide) (by decide +kernel) (by decide +kernel)
  have hbodies : documentBodies .posix
      ((documentStart (ascii "a\\\nE\nE\n\tc\n\tF\nd")).documentsOf
        (documentStart (ascii "a\\\nE\nE\n\tc\n\tF\nd")).frame)
      ([] ++ ascii "a\\\nE\nE\n\tc\n\tF\nd") =
        some ([ascii "a\\\nE\n", ascii "c\n"], ascii "d") := by decide +kernel
  rw [hbodies] at hcollect
  obtain ⟨s', unread', rest', hrun, -, -, -, hfilled⟩ := hcollect
  obtain ⟨start, stop, hbody⟩ := hfilled.bodies 0 (ascii "a\\\nE\n") (by decide +kernel)
  obtain ⟨start', stop', hbody'⟩ := hfilled.bodies 1 (ascii "c\n") (by decide +kernel)
  exact ⟨s', hrun, by rw [hbody]; rfl, by rw [hbody']; rfl⟩

end Parse
end CShell
