import CShell.Expand.Fields

/-!
# Field splitting meets its reference

The splitter of `fields.c` interleaves a cursor over spans with the candidate it
is building.  Here the same task is said without a cursor: the spans of a field
are read as a sequence of *items*, and the items are cut at maximal blocks of
delimiters.

## Main definitions

* `Item`, `fieldItems` — data, white and hard delimiters, and the positions of
  empty quoted spans, in the order of the field.
* `splitItems` — the candidates between delimiter blocks, and which of them stay.

## Main results

* `splitItems_white_cons`, `splitItems_append_white`, `splitItems_append_hard` —
  white space at either end and a final hard delimiter add no field.
* `flatten_splitItems` — no data is lost, duplicated or reordered.
* `expandFields_argument_noglob` — **the splitter returns the reference fields.**
-/

namespace CShell

/-! ### The reference -/

/-- What a field consists of, for splitting. -/
inductive Item
  /-- Bytes that belong to a field. -/
  | data (bytes : Bytes)
  /-- A delimiter that is `IFS` white space. -/
  | white
  /-- Any other delimiter. -/
  | hard
  /-- The position of an empty quoted span. -/
  | emptyQuoted
  deriving DecidableEq, Repr

namespace Item

def isContent : Item → Bool
  | data _ | emptyQuoted => true
  | white | hard => false

def isWhite : Item → Bool
  | white => true
  | _ => false

def bytes : Item → Bytes
  | data bytes => bytes
  | _ => []

end Item

/-- The data of a sequence of items. -/
def dataOf (items : List Item) : Bytes := items.flatMap Item.bytes

/-- A candidate is kept iff it is nonempty, ends at a hard delimiter, or contains
the position of an empty quoted span. -/
def keptField (body : List Item) (hard : Bool) : List Bytes :=
  if dataOf body ≠ [] ∨ hard ∨ Item.emptyQuoted ∈ body then [dataOf body] else []

/-- Behind a delimiter: skip white delimiters and at most one hard one, and say
whether there was one. -/
def restOfBlock (items : List Item) : Bool × List Item :=
  match items.dropWhile Item.isWhite with
  | .hard :: after => (true, after)
  | after => (false, after)

/-- The block of delimiters that `first` begins: whether it has a hard one, and
what follows it. -/
def delimiterBlock (first : Item) (rest : List Item) : Bool × List Item :=
  match first with
  | .hard => (true, rest)
  | _ => restOfBlock rest

theorem length_restOfBlock (items : List Item) : (restOfBlock items).2.length ≤ items.length := by
  have h := (List.dropWhile_suffix Item.isWhite (l := items)).length_le
  unfold restOfBlock
  split
  · rename_i after hw
    rw [hw, List.length_cons] at h
    exact Nat.le_of_succ_le h
  · exact h

theorem length_delimiterBlock (first : Item) (rest : List Item) :
    (delimiterBlock first rest).2.length ≤ rest.length := by
  cases first with
  | hard => exact Nat.le_refl _
  | white => exact length_restOfBlock rest
  | data bytes => exact length_restOfBlock rest
  | emptyQuoted => exact length_restOfBlock rest

/-- Cut items into fields.  A candidate extends to the next delimiter; the block
of delimiters that ends it is a run of white ones and at most one hard one. -/
def splitItems (items : List Item) : List Bytes :=
  let body := items.takeWhile Item.isContent
  match h : items.dropWhile Item.isContent with
  | [] => keptField body false
  | first :: rest =>
    let block := delimiterBlock first rest
    keptField body block.1 ++ splitItems block.2
termination_by items.length
decreasing_by
  have h₁ := (List.dropWhile_suffix Item.isContent (l := items)).length_le
  have h₂ := length_delimiterBlock first rest
  rw [h, List.length_cons] at h₁
  exact Nat.lt_of_le_of_lt h₂ h₁

/-- The characters of an `IFS` value; an invalid sequence is taken bytewise. -/
def ifsCharacters (d : Decoder) (ifs : Bytes) : List Bytes :=
  match ifs with
  | [] => []
  | byte :: rest =>
    let width := d.characterBytes (byte :: rest) - 1
    (byte :: rest.take width) :: ifsCharacters d (rest.drop width)
termination_by ifs.length
decreasing_by simp only [List.length_drop, List.length_cons]; omega

/-- Only space, tab and newline are `IFS` white space, whatever the locale. -/
def isIfsWhite (character : Bytes) : Bool :=
  character == ascii " " || character == ascii "\t" || character == ascii "\n"

/-- Read the text of a span that may be split: at every character, a delimiter if
an `IFS` character stands there, and data otherwise. -/
def textItems (d : Decoder) (separators : List Bytes) (text : Bytes) : List Item :=
  match text with
  | [] => []
  | byte :: rest =>
    match separators.find? fun c => c.isPrefixOf (byte :: rest) with
    | some c =>
      (if isIfsWhite c then .white else .hard) :: textItems d separators (rest.drop (c.length - 1))
    | none =>
      let width := d.characterLength (byte :: rest) true - 1
      .data (byte :: rest.take width) :: textItems d separators (rest.drop width)
termination_by text.length
decreasing_by all_goals simp only [List.length_drop, List.length_cons]; omega

/-- The items of one span. -/
def spanItems (d : Decoder) (separators : List Bytes) (span : Span) : List Item :=
  if span.text = [] then if span.keepEmpty then [.emptyQuoted] else []
  else if span.split then textItems d separators span.text
  else [.data span.text]

/-- The items of an intermediate field. -/
def fieldItems (d : Decoder) (separators : List Bytes) (field : List Span) : List Item :=
  field.flatMap (spanItems d separators)

/-! ### Properties of the reference -/

theorem dataOf_append (a b : List Item) : dataOf (a ++ b) = dataOf a ++ dataOf b :=
  List.flatMap_append

variable {body : List Item}

/-- A candidate under construction enters the split only through its data and the
presence of an empty quoted position. -/
theorem splitItems_content_append (hbody : body.all Item.isContent)
    (items : List Item) :
    splitItems (body ++ items) =
      match items.dropWhile Item.isContent with
      | [] => keptField (body ++ items.takeWhile Item.isContent) false
      | first :: rest =>
        keptField (body ++ items.takeWhile Item.isContent) (delimiterBlock first rest).1 ++
          splitItems (delimiterBlock first rest).2 := by
  have hall : ∀ a ∈ body, Item.isContent a = true := List.all_eq_true.mp hbody
  rw [splitItems]
  rw [List.takeWhile_append_of_pos hall, List.dropWhile_append_of_pos hall]
  cases items.dropWhile Item.isContent with
  | nil => rfl
  | cons first rest => rfl

theorem keptField_congr {body body' : List Item} (hdata : dataOf body = dataOf body')
    (hmark : Item.emptyQuoted ∈ body ↔ Item.emptyQuoted ∈ body') (hard : Bool) :
    keptField body hard = keptField body' hard := by
  unfold keptField
  simp only [hdata, hmark]

theorem splitItems_congr {body body' : List Item} (hbody : body.all Item.isContent)
    (hbody' : body'.all Item.isContent) (hdata : dataOf body = dataOf body')
    (hmark : Item.emptyQuoted ∈ body ↔ Item.emptyQuoted ∈ body') (items : List Item) :
    splitItems (body ++ items) = splitItems (body' ++ items) := by
  have hkept : ∀ hard, keptField (body ++ items.takeWhile Item.isContent) hard =
      keptField (body' ++ items.takeWhile Item.isContent) hard := by
    intro hard
    apply keptField_congr
    · rw [dataOf_append, dataOf_append, hdata]
    · simp only [List.mem_append, hmark]
  rw [splitItems_content_append hbody, splitItems_content_append hbody']
  simp only [hkept]

theorem splitItems_content (hbody : body.all Item.isContent) :
    splitItems body = keptField body false := by
  have h := splitItems_content_append hbody []
  simpa using h

theorem splitItems_delimiter (hbody : body.all Item.isContent) {first : Item}
    (hfirst : first.isContent = false) (rest : List Item) :
    splitItems (body ++ first :: rest) =
      keptField body (delimiterBlock first rest).1 ++ splitItems (delimiterBlock first rest).2 := by
  rw [splitItems_content_append hbody, List.dropWhile_cons_of_neg (by simp [hfirst]),
    List.takeWhile_cons_of_neg (by simp [hfirst]), List.append_nil]

theorem splitItems_delimiter_cons {first : Item} (hfirst : first.isContent = false)
    (rest : List Item) :
    splitItems (first :: rest) =
      keptField [] (delimiterBlock first rest).1 ++ splitItems (delimiterBlock first rest).2 :=
  @splitItems_delimiter [] rfl first hfirst rest

theorem keptField_nil : keptField [] false = [] := by simp [keptField, dataOf]

/-- Leading white delimiters yield no field. -/
theorem splitItems_white_cons (items : List Item) :
    splitItems (.white :: items) = splitItems items := by
  rw [splitItems_delimiter_cons rfl]
  cases items with
  | nil => simp [delimiterBlock, restOfBlock, keptField_nil]
  | cons first rest =>
    cases first with
    | data bytes =>
      show keptField [] false ++ splitItems (.data bytes :: rest) = splitItems (.data bytes :: rest)
      rw [keptField_nil, List.nil_append]
    | emptyQuoted =>
      show keptField [] false ++ splitItems (.emptyQuoted :: rest) =
        splitItems (.emptyQuoted :: rest)
      rw [keptField_nil, List.nil_append]
    | white => rw [splitItems_delimiter_cons rfl rest]; rfl
    | hard => rw [splitItems_delimiter_cons rfl rest]; rfl

/-- Items are content up to a first delimiter, if there is one. -/
theorem content_or_delimiter (items : List Item) :
    items.all Item.isContent ∨
      ∃ body first rest, body.all Item.isContent ∧ first.isContent = false ∧
        items = body ++ first :: rest := by
  induction items with
  | nil => exact Or.inl rfl
  | cons item items ih =>
    by_cases hitem : item.isContent
    · rcases ih with hall | ⟨body, first, rest, hbody, hfirst, rfl⟩
      · exact Or.inl (by rw [List.all_cons, hitem, hall, Bool.true_and])
      · refine Or.inr ⟨item :: body, first, rest, ?_, hfirst, rfl⟩
        rw [List.all_cons, hitem, hbody, Bool.true_and]
    · exact Or.inr ⟨[], item, items, rfl, Bool.eq_false_iff.mpr hitem, rfl⟩

theorem splitItems_nil : splitItems [] = [] :=
  (@splitItems_content [] rfl).trans keptField_nil

theorem keptField_flatten (body : List Item) (hard : Bool) :
    (keptField body hard).flatten = dataOf body := by
  unfold keptField
  split
  · simp
  · rename_i h
    simp only [not_or, not_not] at h
    simp [h.1]

theorem dataOf_restOfBlock (items : List Item) : dataOf (restOfBlock items).2 = dataOf items := by
  induction items with
  | nil => rfl
  | cons first rest ih =>
    cases first with
    | data bytes => rfl
    | emptyQuoted => rfl
    | hard => rfl
    | white => exact ih

theorem dataOf_delimiterBlock {first : Item} (hfirst : first.isContent = false) (rest : List Item) :
    dataOf (delimiterBlock first rest).2 = dataOf (first :: rest) := by
  cases first with
  | data bytes => cases hfirst
  | emptyQuoted => cases hfirst
  | hard => rfl
  | white => exact dataOf_restOfBlock rest

/-- **Splitting loses, duplicates and reorders no data.** -/
theorem flatten_splitItems (items : List Item) : (splitItems items).flatten = dataOf items := by
  -- by strong induction: the rest behind a delimiter block is shorter
  induction hn : items.length using Nat.strong_induction_on generalizing items with
  | h n ih =>
    rcases content_or_delimiter items with hall | ⟨body, first, rest, hbody, hfirst, rfl⟩
    · rw [splitItems_content hall, keptField_flatten]
    · have hlt : (delimiterBlock first rest).2.length < n := by
        have := length_delimiterBlock first rest
        simp only [List.length_append, List.length_cons] at hn
        omega
      rw [splitItems_delimiter hbody hfirst, List.flatten_append, keptField_flatten,
        ih _ hlt _ rfl, dataOf_delimiterBlock hfirst, dataOf_append]

/-! ### The code's matching of `IFS` characters -/

theorem characterBytes_take {d : Decoder} (byte : UInt8) (rest : Bytes) :
    (byte :: rest.take (d.characterBytes (byte :: rest) - 1)).length =
      d.characterBytes (byte :: rest) := by
  have hpos := d.characterBytes_pos (byte :: rest)
  have hle : d.characterBytes (byte :: rest) ≤ (byte :: rest).length :=
    d.characterBytes_le (by simp)
  simp only [List.length_cons, List.length_take] at hle ⊢
  omega

/-- A one-byte character is white iff its byte is. -/
theorem isIfsWhite_cons (byte : UInt8) (rest : Bytes) :
    isIfsWhite (byte :: rest) =
      ((byte :: rest).length == 1 && (ascii " \t\n").contains byte) := by
  cases rest with
  | nil =>
    have hbytes : ascii " \t\n" = [32, 9, 10] := rfl
    rw [hbytes, Bool.eq_iff_iff]
    simp [isIfsWhite, ascii, or_assoc]
  | cons next rest => simp [isIfsWhite, ascii]

/-- `delimiter` finds the first `IFS` character that stands at the cursor. -/
theorem matchIfs_eq (env : ExpandEnv) (ifs text : Bytes) :
    matchIfs env ifs text =
      ((ifsCharacters env.current ifs).find? fun c => c.isPrefixOf text).map
        fun c => (c.length, isIfsWhite c) := by
  fun_induction matchIfs env ifs text with
  | case1 => rw [ifsCharacters]; rfl
  | case2 byte rest length hprefix =>
    rw [ifsCharacters, List.find?_cons, show _ = true from hprefix, Option.map_some,
      isIfsWhite_cons, characterBytes_take]
  | case3 byte rest length hprefix ih =>
    rw [ifsCharacters, List.find?_cons, show _ = false from Bool.eq_false_iff.mpr hprefix]
    exact ih

/-! ### The items at the cursor -/

section Cursor

variable (d : Decoder) (separators : List Bytes)

/-- The items of a text that is not split. -/
def dataItems (text : Bytes) : List Item := if text = [] then [] else [.data text]

/-- The items of a span from an offset on. -/
def spanItemsAt (span : Span) (offset : ℕ) : List Item :=
  if span.text = [] then if span.keepEmpty then [.emptyQuoted] else []
  else if span.split then textItems d separators (span.text.drop offset)
  else dataItems (span.text.drop offset)

/-- The items that lie ahead of a cursor. -/
def itemsAt : List Span → ℕ → List Item
  | [], _ => []
  | span :: rest, offset => spanItemsAt d separators span offset ++ fieldItems d separators rest

theorem spanItemsAt_zero (span : Span) : spanItemsAt d separators span 0 = spanItems d separators span := by
  unfold spanItemsAt spanItems dataItems
  split
  · rfl
  · rename_i hne
    simp [hne]

theorem itemsAt_zero (spans : List Span) : itemsAt d separators spans 0 = fieldItems d separators spans := by
  cases spans with
  | nil => rfl
  | cons span rest => rw [itemsAt, spanItemsAt_zero]; rfl

/-- Skipping used up spans and implicit empty ones skips no item. -/
theorem itemsAt_current (spans : List Span) (offset : ℕ) :
    itemsAt d separators (current spans offset).1 (current spans offset).2 =
      itemsAt d separators spans offset := by
  induction spans generalizing offset with
  | nil => rfl
  | cons span rest ih =>
    unfold current
    split
    · rfl
    · rename_i hskip
      simp only [Bool.or_eq_true, decide_eq_true_eq, Bool.and_eq_true, not_or, not_and, not_lt,
        List.isEmpty_iff] at hskip
      have hnone : spanItemsAt d separators span offset = [] := by
        unfold spanItemsAt
        rw [List.drop_eq_nil_of_le hskip.1]
        by_cases hempty : span.text = []
        · simp [hempty, hskip.2 hempty]
        · simp [hempty, dataItems, textItems]
      rw [ih, itemsAt_zero, itemsAt, hnone, List.nil_append]

end Cursor

/-! ### The splitter against the reference -/

section Loop

variable (env : ExpandEnv) (ifs : Bytes)

/-- The items ahead of a cursor of the code. -/
def ahead (spans : List Span) (offset : ℕ) : List Item :=
  itemsAt env.current (ifsCharacters env.current ifs) spans offset

/-- The item of a delimiter that `delimiter` found. -/
def delimiterItem (white : Bool) : Item := if white then .white else .hard

variable {env ifs}

theorem take_drop_cons {text tail : Bytes} {byte : UInt8} {offset width : ℕ} (hwidth : 0 < width)
    (htext : text.drop offset = byte :: tail) :
    text.drop (offset + width) = tail.drop (width - 1) ∧
      (text.drop offset).take width = byte :: tail.take (width - 1) := by
  obtain ⟨k, rfl⟩ := Nat.exists_eq_succ_of_ne_zero (Nat.pos_iff_ne_zero.mp hwidth)
  rw [← List.drop_drop, htext]
  exact ⟨rfl, rfl⟩

variable {rest spans : List Span} {span : Span} {offset offset' : ℕ}

/-- At a delimiter the items begin with it, and continue behind it. -/
theorem ahead_of_delimiter {offset n : ℕ} {white : Bool}
    (h : delimiter env ifs (span :: rest) offset = some (n, white)) :
    ahead env ifs (span :: rest) offset =
      delimiterItem white :: ahead env ifs (span :: rest) (offset + n) := by
  have hbounds := delimiter_bounds env h
  simp only [delimiter] at h
  split at h
  · cases h
  · rename_i hsplit
    have hsplit : span.split = true := by simp_all
    have hne : span.text ≠ [] := by
      intro hnil
      rw [hnil, List.length_nil, Nat.zero_sub] at hbounds
      omega
    rw [matchIfs_eq, Option.map_eq_some_iff] at h
    obtain ⟨c, hfind, hc⟩ := h
    obtain ⟨rfl, rfl⟩ := Prod.mk.inj hc
    obtain ⟨byte, tail, htext⟩ : ∃ byte tail, span.text.drop offset = byte :: tail := by
      apply List.exists_cons_of_ne_nil
      rw [ne_eq, List.drop_eq_nil_iff]
      omega
    simp only [ahead, itemsAt, spanItemsAt, hne, hsplit, if_true, if_false]
    rw [(take_drop_cons hbounds.1 htext).1, htext, textItems]
    rw [htext] at hfind
    simp only [hfind]
    rfl

/-- In a span that may be split, a character that is no delimiter is an item. -/
theorem ahead_of_character {offset width : ℕ}
    (hvalid : span.wellFormed) (hsplit : span.split) (hlt : offset < span.text.length)
    (h : delimiter env ifs (span :: rest) offset = none)
    (hwidth : width = env.current.characterLength (span.text.drop offset) true) :
    ahead env ifs (span :: rest) offset =
      .data ((span.text.drop offset).take width) ::
        ahead env ifs (span :: rest) (offset + width) := by
  have hdrop : span.text.drop offset ≠ [] := by simpa using hlt
  have hne : span.text ≠ [] := by
    intro hnil
    exact hdrop (by rw [hnil, List.drop_nil])
  have hpos : 0 < width := hwidth ▸ env.current.characterLength_final_pos hdrop
  have hquote : span.quote = .none := by
    simp only [Span.wellFormed, hsplit] at hvalid
    simp_all
  simp only [delimiter, hsplit, hquote] at h
  rw [if_neg (by simpa using Nat.ne_of_lt hlt), matchIfs_eq, Option.map_eq_none_iff] at h
  obtain ⟨byte, tail, htext⟩ := List.exists_cons_of_ne_nil hdrop
  obtain ⟨htail, htake⟩ := take_drop_cons hpos htext
  simp only [ahead, itemsAt, spanItemsAt, hne, hsplit, if_true, if_false]
  rw [htail, htake, htext, textItems]
  rw [htext] at h hwidth
  simp only [h, ← hwidth]
  rfl

theorem dataOf_dataItems (text : Bytes) : dataOf (dataItems text) = text := by
  unfold dataItems
  split
  · simp_all [dataOf]
  · simp [dataOf, Item.bytes]

theorem isContent_dataItems (text : Bytes) : (dataItems text).all Item.isContent := by
  unfold dataItems
  split <;> rfl

theorem emptyQuoted_notMem_dataItems (text : Bytes) : Item.emptyQuoted ∉ dataItems text := by
  unfold dataItems
  split <;> simp

/-- In a span that is never split the whole rest is one item of data, and any
first part of it may be cut off. -/
theorem split_ahead_of_unsplit (hne : span.text ≠ [])
    (hsplit : span.split = false) (offset width : ℕ)
    (hbody : body.all Item.isContent) :
    splitItems (body ++ ahead env ifs (span :: rest) offset) =
      splitItems ((body ++ [.data ((span.text.drop offset).take width)]) ++
        ahead env ifs (span :: rest) (offset + width)) := by
  have hitems : ∀ o, ahead env ifs (span :: rest) o =
      dataItems (span.text.drop o) ++
        fieldItems env.current (ifsCharacters env.current ifs) rest := by
    intro o
    simp only [ahead, itemsAt, spanItemsAt, hne, hsplit, if_false, Bool.false_eq_true]
  rw [hitems, hitems, ← List.append_assoc, ← List.append_assoc]
  apply splitItems_congr
  · simp [hbody, isContent_dataItems]
  · simp only [List.all_append, hbody, isContent_dataItems]
    rfl
  · have hcut : dataOf [Item.data ((span.text.drop offset).take width)] =
        (span.text.drop offset).take width := List.append_nil _
    rw [dataOf_append, dataOf_append, dataOf_append, dataOf_dataItems, dataOf_dataItems, hcut,
      ← List.drop_drop, List.append_assoc, List.take_append_drop]
  · simp [emptyQuoted_notMem_dataItems]

/-- Reading one character that is no delimiter moves its bytes into the candidate. -/
theorem split_ahead_of_character {offset width : ℕ}
    (hvalid : span.wellFormed) (hlt : offset < span.text.length)
    (h : delimiter env ifs (span :: rest) offset = none)
    (hwidth : width = env.current.characterLength (span.text.drop offset) true)
    (hbody : body.all Item.isContent) :
    splitItems (body ++ ahead env ifs (span :: rest) offset) =
      splitItems ((body ++ [.data ((span.text.drop offset).take width)]) ++
        ahead env ifs (span :: rest) (offset + width)) := by
  by_cases hsplit : span.split
  · rw [ahead_of_character hvalid hsplit hlt h hwidth, List.append_assoc]
    rfl
  · have hne : span.text ≠ [] := List.length_pos_iff.mp (Nat.zero_lt_of_lt hlt)
    exact split_ahead_of_unsplit hne (Bool.eq_false_iff.mpr hsplit) offset width hbody

/-- A cursor that stands in a span but at no delimiter has content ahead. -/
theorem restOfBlock_ahead
    (hvalid : span.wellFormed) (hcur : current spans offset = (span :: rest, offset'))
    (h : delimiter env ifs (span :: rest) offset' = none) :
    restOfBlock (ahead env ifs (span :: rest) offset') =
      (false, ahead env ifs (span :: rest) offset') := by
  have hhead : ∃ item items, ahead env ifs (span :: rest) offset' = item :: items ∧
      item.isContent := by
    rcases current_head hcur with hlt | ⟨hempty, hkeep⟩
    · by_cases hsplit : span.split
      · exact ⟨_, _, ahead_of_character hvalid hsplit hlt h rfl, rfl⟩
      · have hne : span.text ≠ [] := List.length_pos_iff.mp (Nat.zero_lt_of_lt hlt)
        have hdrop : span.text.drop offset' ≠ [] := by simpa using hlt
        simp only [ahead, itemsAt, spanItemsAt, hne, hsplit, dataItems, hdrop, if_false,
          Bool.false_eq_true]
        exact ⟨_, _, rfl, rfl⟩
    · have hnil : span.text = [] := List.isEmpty_iff.mp hempty
      simp only [ahead, itemsAt, spanItemsAt, hnil, hkeep, if_true]
      exact ⟨_, _, rfl, rfl⟩
  obtain ⟨item, items, hitems, hcontent⟩ := hhead
  rw [hitems]
  cases item with
  | data bytes => rfl
  | emptyQuoted => rfl
  | white => cases hcontent
  | hard => cases hcontent

theorem current_suffix (spans : List Span) (offset : ℕ) : (current spans offset).1 <:+ spans := by
  induction spans generalizing offset with
  | nil => exact List.suffix_refl _
  | cons span rest ih =>
    unfold current
    split
    · exact List.suffix_refl _
    · exact (ih 0).trans (List.suffix_cons span rest)

theorem current_subset {spans spans' : List Span}
    (h : current spans offset = (spans', offset')) : ∀ span ∈ spans', span ∈ spans := by
  have hsuffix := current_suffix spans offset
  rw [h] at hsuffix
  exact fun span hspan => hsuffix.subset hspan

theorem ahead_current {spans spans' : List Span}
    (h : current spans offset = (spans', offset')) :
    ahead env ifs spans offset = ahead env ifs spans' offset' := by
  have hitems := itemsAt_current env.current (ifsCharacters env.current ifs) spans offset
  rw [h] at hitems
  exact hitems.symm

theorem skipWhite_subset (spans : List Span) (offset : ℕ) :
    ∀ span ∈ (skipWhite env ifs spans offset).1, span ∈ spans := by
  fun_induction skipWhite env ifs spans offset with
  | case1 spans offset offset' h => simp
  | case2 spans offset span rest offset' h hd => exact current_subset h
  | case3 spans offset span rest offset' h n hd => exact current_subset h
  | case4 spans offset span rest offset' h n hd ih =>
    exact fun s hs => current_subset h s (ih s hs)

/-- The white space loop skips the rest of a delimiter block. -/
theorem restOfBlock_skipWhite (hvalid : ∀ span ∈ spans, span.wellFormed)
    (offset : ℕ) :
    restOfBlock (ahead env ifs spans offset) =
      ((skipWhite env ifs spans offset).2.2,
        ahead env ifs (skipWhite env ifs spans offset).1 (skipWhite env ifs spans offset).2.1) := by
  fun_induction skipWhite env ifs spans offset with
  | case1 spans offset offset' h =>
    rw [ahead_current h]
    rfl
  | case2 spans offset span rest offset' h hd =>
    have hspan := hvalid span (current_subset h span List.mem_cons_self)
    rw [ahead_current h]
    exact restOfBlock_ahead hspan h hd
  | case3 spans offset span rest offset' h n hd =>
    rw [ahead_current h, ahead_of_delimiter hd]
    rfl
  | case4 spans offset span rest offset' h n hd ih =>
    have hvalid' := fun s hs => hvalid s (current_subset h s hs)
    rw [ahead_current h, ahead_of_delimiter hd]
    exact ih hvalid'

variable (env ifs) in
/-- The delimiters that end a candidate are a block of the reference. -/
theorem delimiterBlock_skipDelimiters
    (hvalid : ∀ span ∈ spans, span.wellFormed) (offset n : ℕ) (white : Bool) :
    delimiterBlock (delimiterItem white) (ahead env ifs spans (offset + n)) =
      ((skipDelimiters env ifs spans offset n white).2.2,
        ahead env ifs (skipDelimiters env ifs spans offset n white).1
          (skipDelimiters env ifs spans offset n white).2.1) := by
  cases white with
  | false => rfl
  | true => exact restOfBlock_skipWhite hvalid (offset + n)

theorem skipDelimiters_subset (spans : List Span) (offset n : ℕ) (white : Bool) :
    ∀ span ∈ (skipDelimiters env ifs spans offset n white).1, span ∈ spans := by
  cases white with
  | false => exact fun _ h => h
  | true => exact skipWhite_subset spans (offset + n)

theorem delimiterItem_isContent (white : Bool) : (delimiterItem white).isContent = false := by
  cases white <;> rfl

theorem rawOf_append (a b : List Cell) : rawOf (a ++ b) = rawOf a ++ rawOf b := List.map_append

theorem rawOf_cells (span : Span) (offset width : ℕ) :
    rawOf (span.cells offset width) = (span.text.drop offset).take width := by
  rw [rawOf, Span.cells, List.map_map]
  exact List.map_id _

/-- Without pathname expansion an argument is emitted as it is. -/
theorem emit_argument_noglob {options : UInt32} (hnoglob : hasBit options Opt.noglob)
    (cells : List Cell) (out : Output) :
    emit env .argument options cells out = (.ok, out.append (rawOf cells)) := by
  simp [emit, hnoglob]

variable (env) in
/-- The test that keeps a candidate is that of the reference. -/
theorem emit_keptField {options : UInt32} (hnoglob : hasBit options Opt.noglob) {cells : List Cell}
    {keep : Bool} (hdata : dataOf body = rawOf cells)
    (hmark : Item.emptyQuoted ∈ body ↔ keep = true) (hard : Bool) (out : Output) :
    (if !cells.isEmpty || keep || hard then emit env .argument options cells out else (.ok, out)) =
      (.ok, { out with fields := out.fields ++ keptField body hard }) := by
  have hnil : dataOf body = [] ↔ cells = [] := by
    rw [hdata]
    exact List.map_eq_nil_iff
  by_cases hkeep : cells = [] ∧ keep = false ∧ hard = false
  · obtain ⟨rfl, rfl, rfl⟩ := hkeep
    have hmark' : Item.emptyQuoted ∉ body := by simpa using hmark
    simp [keptField, hnil, hmark']
  · have hcode : (!cells.isEmpty || keep || hard) = true := by
      simp only [Bool.or_eq_true, Bool.not_eq_true', List.isEmpty_eq_false_iff]
      cases keep <;> cases hard <;> simp_all
    have hspec : dataOf body ≠ [] ∨ hard = true ∨ Item.emptyQuoted ∈ body := by
      rw [ne_eq, hnil, hmark]
      cases keep <;> cases hard <;> simp_all
    rw [if_pos hcode, emit_argument_noglob hnoglob, keptField, if_pos hspec, hdata]
    rfl

/-- A cursor does not stand behind the end of its span. -/
def Inside (spans : List Span) (offset : ℕ) : Prop :=
  ∀ span ∈ spans.head?, offset ≤ span.text.length

theorem inside_zero (spans : List Span) : Inside spans 0 := fun _ _ => Nat.zero_le _

theorem Inside.current {spans spans' : List Span} (h : Inside spans offset)
    (hcur : current spans offset = (spans', offset')) : Inside spans' offset' := by
  induction spans generalizing offset with
  | nil =>
    cases hcur
    exact h
  | cons span rest ih =>
    unfold CShell.current at hcur
    split at hcur
    · cases hcur
      exact h
    · exact ih (inside_zero rest) hcur

theorem inside_of_delimiter {offset n : ℕ} {white : Bool}
    (h : Inside (span :: rest) offset)
    (hd : delimiter env ifs (span :: rest) offset = some (n, white)) :
    Inside (span :: rest) (offset + n) := by
  have hbounds := delimiter_bounds env hd
  have hspan := h span rfl
  intro s hs
  cases hs
  omega

theorem inside_skipWhite (h : Inside spans offset) :
    Inside (skipWhite env ifs spans offset).1 (skipWhite env ifs spans offset).2.1 := by
  fun_induction skipWhite env ifs spans offset with
  | case1 spans offset offset' hcur => exact h.current hcur
  | case2 spans offset span rest offset' hcur hd => exact h.current hcur
  | case3 spans offset span rest offset' hcur n hd => exact inside_of_delimiter (h.current hcur) hd
  | case4 spans offset span rest offset' hcur n hd ih =>
    exact ih (inside_of_delimiter (h.current hcur) hd)

theorem inside_skipDelimiters {offset n : ℕ} {white : Bool}
    (h : Inside (span :: rest) offset)
    (hd : delimiter env ifs (span :: rest) offset = some (n, white)) :
    Inside (skipDelimiters env ifs (span :: rest) offset n white).1
      (skipDelimiters env ifs (span :: rest) offset n white).2.1 := by
  cases white with
  | false => exact inside_of_delimiter h hd
  | true => exact inside_skipWhite (inside_of_delimiter h hd)

/-- **Run lemma.** From any cursor, with a candidate under construction, the loop
appends the fields of the reference. -/
theorem finishLoop_eq {options : UInt32} (hnoglob : hasBit options Opt.noglob) {spans : List Span}
    (hvalid : ∀ span ∈ spans, span.wellFormed) {offset : ℕ} (hinside : Inside spans offset)
    {cells : List Cell} {keep : Bool} (out : Output) {body : List Item}
    (hbody : body.all Item.isContent) (hdata : dataOf body = rawOf cells)
    (hmark : Item.emptyQuoted ∈ body ↔ keep = true) :
    finishLoop env .argument ifs options spans offset cells keep out =
      (.ok, { out with
        fields := out.fields ++ splitItems (body ++ ahead env ifs spans offset) }) := by
  fun_induction finishLoop env .argument ifs options spans offset cells keep out
    generalizing body with
  | case1 spans offset cells keep out offset' hcur hkept =>
    have hend : ahead env ifs spans offset = [] := ahead_current hcur
    have hemit := emit_keptField env hnoglob hdata hmark false out
    rw [if_pos (by rw [hkept, Bool.true_or])] at hemit
    rw [hend, List.append_nil, splitItems_content hbody]
    exact hemit
  | case2 spans offset cells keep out offset' hcur hkept =>
    have hend : ahead env ifs spans offset = [] := ahead_current hcur
    have hemit := emit_keptField env hnoglob hdata hmark false out
    rw [if_neg (by rw [Bool.or_false]; exact hkept)] at hemit
    rw [hend, List.append_nil, splitItems_content hbody]
    exact hemit
  | case3 spans offset cells keep out span rest offset' hcur hempty ih =>
    -- an empty quoted span marks the candidate
    have hnil : span.text = [] := List.isEmpty_iff.mp hempty
    have hzero : offset' = 0 := by
      have := hinside.current hcur span rfl
      rw [hnil] at this
      exact Nat.le_zero.mp this
    have hkeep : span.keepEmpty := by
      rcases current_head hcur with hlt | ⟨_, hkeep⟩
      · rw [hnil] at hlt
        exact absurd hlt (Nat.not_lt_zero _)
      · exact hkeep
    have hitems : ahead env ifs (span :: rest) offset' =
        .emptyQuoted :: ahead env ifs rest offset' := by
      rw [hzero]
      simp only [ahead, itemsAt_zero]
      simp [fieldItems, spanItems, hnil, hkeep]
    have hvalid' := fun s hs => hvalid s (current_subset hcur s (List.mem_cons_of_mem span hs))
    rw [ahead_current hcur, hitems,
      @ih hvalid' (hzero ▸ inside_zero rest) (body ++ [.emptyQuoted])]
    · rw [List.append_assoc]
      rfl
    · rw [List.all_append, hbody]
      rfl
    · rw [dataOf_append, hdata]
      exact List.append_nil _
    · simp
  | case4 spans offset cells keep out span rest offset' hcur hempty hd width ih =>
    rw [dif_pos rfl] at hd
    have hvalid' := fun s hs => hvalid s (current_subset hcur s hs)
    have hlt : offset' < span.text.length := by
      rcases current_head hcur with hlt | ⟨hnil, _⟩
      · exact hlt
      · exact absurd hnil hempty
    have hdrop : span.text.drop offset' ≠ [] := by simpa using hlt
    have hwidth : width ≤ (span.text.drop offset').length :=
      env.current.characterLength_final_le hdrop
    have hinside' : Inside (span :: rest) (offset' + width) := by
      intro s hs
      cases hs
      rw [List.length_drop] at hwidth
      omega
    rw [ahead_current hcur,
      split_ahead_of_character (hvalid' span List.mem_cons_self) hlt hd rfl hbody]
    apply ih hvalid' hinside'
    · rw [List.all_append, hbody]
      rfl
    · rw [dataOf_append, hdata, rawOf_append, rawOf_cells]
      exact congrArg _ (List.append_nil _)
    · simpa using hmark
  | case5 spans offset cells keep out span rest offset' hcur hempty n white hd after emitted hok ih =>
    rw [dif_pos rfl] at hd
    have hvalid' := fun s hs => hvalid s (current_subset hcur s hs)
    have hemit := emit_keptField env hnoglob hdata hmark after.2.2 out
    have hemitted : emitted = (.ok, { out with fields := out.fields ++ keptField body after.2.2 }) := by
      rw [← hemit]
      rfl
    have hblock := delimiterBlock_skipDelimiters env ifs hvalid' offset' n white
    rw [ahead_current hcur, ahead_of_delimiter hd,
      splitItems_delimiter hbody (delimiterItem_isContent white), hblock,
      @ih (fun s hs => hvalid' s (skipDelimiters_subset _ _ _ _ s hs))
        (inside_skipDelimiters (hinside.current hcur) hd) [] rfl rfl (by simp), hemitted]
    simp only [List.nil_append, List.append_assoc]
    rfl
  | case6 spans offset cells keep out span rest offset' hcur hempty n white hd after emitted hok =>
    have hemit := emit_keptField env hnoglob hdata hmark after.2.2 out
    have hemitted : emitted = (.ok, { out with fields := out.fields ++ keptField body after.2.2 }) := by
      rw [← hemit]
      rfl
    exact absurd (congrArg Prod.fst hemitted) hok

/-- One intermediate field. -/
theorem finishField_eq {options : UInt32} (hnoglob : hasBit options Opt.noglob) {field : List Span}
    (hvalid : ∀ span ∈ field, span.wellFormed) (out : Output) :
    finishField env .argument ifs options field out =
      (.ok, { out with
        fields := out.fields ++
          splitItems (fieldItems env.current (ifsCharacters env.current ifs) field) }) := by
  have hall : field.all Span.wellFormed = true := List.all_eq_true.mpr hvalid
  have hloop := @finishLoop_eq env ifs options hnoglob field hvalid 0 (inside_zero field) [] false
    out [] rfl rfl (by simp)
  rw [finishField, if_pos hall]
  rw [List.nil_append, ahead, itemsAt_zero] at hloop
  exact hloop

/-- All intermediate fields. -/
theorem finishFields_eq {options : UInt32} (hnoglob : hasBit options Opt.noglob)
    {fields : List (List Span)} (hvalid : ∀ field ∈ fields, ∀ span ∈ field, span.wellFormed)
    (out : Output) :
    finishFields env .argument ifs options fields out =
      (.ok, { out with
        fields := out.fields ++ fields.flatMap fun field =>
          splitItems (fieldItems env.current (ifsCharacters env.current ifs) field) }) := by
  induction fields generalizing out with
  | nil => simp [finishFields]
  | cons field fields ih =>
    have hfield := @finishField_eq env ifs options hnoglob field
      (hvalid field List.mem_cons_self) out
    have hrest := ih (fun f hf => hvalid f (List.mem_cons_of_mem field hf))
    simp only [finishFields, hfield, hrest, List.flatMap_cons, List.append_assoc]

end Loop

/-- The fields that POSIX splitting makes of an expansion under an `IFS` value. -/
def referenceFields (d : Decoder) (ifs : Bytes) (expansion : Expansion) : List Bytes :=
  expansion.fields.flatMap fun field => splitItems (fieldItems d (ifsCharacters d ifs) field)

/-- The data of an expansion: all bytes of its fields but the delimiters. -/
def expansionData (d : Decoder) (ifs : Bytes) (expansion : Expansion) : Bytes :=
  expansion.fields.flatMap fun field => dataOf (fieldItems d (ifsCharacters d ifs) field)

theorem flatten_referenceFields (d : Decoder) (ifs : Bytes) (expansion : Expansion) :
    (referenceFields d ifs expansion).flatten = expansionData d ifs expansion := by
  unfold referenceFields expansionData
  induction expansion.fields with
  | nil => rfl
  | cons field fields ih =>
    rw [List.flatMap_cons, List.flatMap_cons, List.flatten_append, ih, flatten_splitItems]

/-- **`csh_expand_fields` splits as the reference does.**  In argument context and
without pathname expansion, for every `IFS`, an expansion whose spans are
well formed yields exactly the reference fields, which together hold all the
data in order, and nothing in the file system is looked at. -/
theorem expandFields_argument_noglob {F : Type} (env : ExpandEnv) (s : State F)
    (expansion : Expansion) (hcontext : expansion.context = .argument)
    (hnoglob : hasBit s.info.options Opt.noglob)
    (hvalid : ∀ field ∈ expansion.fields, ∀ span ∈ field, span.wellFormed) :
    expandFields env s expansion =
        (.ok, { fields := referenceFields env.current (ifsOf s) expansion, log := [] }, {}) ∧
      (referenceFields env.current (ifsOf s) expansion).flatten =
        expansionData env.current (ifsOf s) expansion := by
  refine ⟨?_, flatten_referenceFields _ _ _⟩
  have hfields := @finishFields_eq env (ifsOf s) s.info.options hnoglob expansion.fields hvalid {}
  simp only [expandFields, hcontext, hfields]
  rfl

/-- The unquoted value `a : b` next to `""`, with a colon in `IFS`. -/
theorem expandFields_argument_noglob_colon :
    let env := ExpandEnv.bare
    let s : State Unit :=
      { vars := [⟨ascii "IFS", some (ascii " :"), 0⟩], info := { options := Opt.noglob } }
    let expansion : Expansion :=
      { fields := [[⟨ascii "a : b ", .none, .parameter, true, false⟩,
          ⟨[], .double, .literal, false, true⟩]] }
    expandFields env s expansion =
        (.ok, { fields := referenceFields env.current (ifsOf s) expansion, log := [] }, {}) ∧
      (referenceFields env.current (ifsOf s) expansion).flatten =
        expansionData env.current (ifsOf s) expansion :=
  expandFields_argument_noglob _ _ _ rfl (by decide) (by decide)

end CShell
