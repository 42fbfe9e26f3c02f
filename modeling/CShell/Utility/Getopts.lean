import CShell.Utility.Assign

/-!
# Option parsing by repeated calls

`getopts` is called once for every option, and between two calls its place in the
arguments is in `OPTIND`, as a number in decimal, and in the offset the state hides, which
every assignment to `OPTIND` clears.  The reference parses all arguments at once and has
no places.

## Main definitions

* `Event`, `shown` — what a parser finds, and how `getopts` reports it.
* `Parses options cluster arguments events operands` — the reference.
* `At` — the place of a call in the arguments.
* `Yields` — the reports of successive calls, up to the one that ends them.

## Main results

* `parses_total`, `Parses.unique` — the arguments have one parse.
* `scanOption_spec` — one call finds the next event.
* `getopts_parses` — **the calls report the parse**, and leave `OPTIND` at the operands.

## References

`src/utility.c` (`getopts_builtin`), `src/state.c` (`csh_state_set_variable`).
-/

namespace CShell
namespace Utility

open List

/-! ### The reference -/

/-- What an option parser finds. -/
inductive Event
  | option (c : UInt8) (argument : Option Bytes)
  | unknown (c : UInt8)
  | missing (c : UInt8)
  deriving DecidableEq, Repr

/-- Whether an option takes an argument, by the option characters. -/
def takesArgument (options : Bytes) (c : UInt8) : Option Bool :=
  if c = byteOf ':' ∨ c = byteOf '?' then none
  else
    match options.dropWhile (· != c) with
    | [] => none
    | _ :: rest => some (rest.head? == some (byteOf ':'))

/-- **The reference parser**: with the rest of a cluster of options in hand and arguments
behind it, the events, and the operands that are left. -/
inductive Parses (options : Bytes) : Bytes → List Bytes → List Event → List Bytes → Prop
  | done : Parses options [] [] [] []
  | operand {arg rest} (h : arg.head? ≠ some (byteOf '-') ∨ arg = ascii "-") :
      Parses options [] (arg :: rest) [] (arg :: rest)
  | dashes {rest} : Parses options [] (ascii "--" :: rest) [] rest
  | cluster {c more rest events operands} (hne : c :: more ≠ ascii "-")
      (h : Parses options (c :: more) rest events operands) :
      Parses options [] ((byteOf '-' :: c :: more) :: rest) events operands
  | unknown {c more rest events operands} (hc : takesArgument options c = none)
      (h : Parses options more rest events operands) :
      Parses options (c :: more) rest (.unknown c :: events) operands
  | flag {c more rest events operands} (hc : takesArgument options c = some false)
      (h : Parses options more rest events operands) :
      Parses options (c :: more) rest (.option c none :: events) operands
  | attached {c first more rest events operands} (hc : takesArgument options c = some true)
      (h : Parses options [] rest events operands) :
      Parses options (c :: first :: more) rest (.option c (some (first :: more)) :: events) operands
  | separate {c value rest events operands} (hc : takesArgument options c = some true)
      (h : Parses options [] rest events operands) :
      Parses options [c] (value :: rest) (.option c (some value) :: events) operands
  | missing {c} (hc : takesArgument options c = some true) :
      Parses options [c] [] [.missing c] []

variable {options : Bytes}

/-- Every list of arguments has a parse. -/
theorem parses_total (options cluster : Bytes) (arguments : List Bytes) :
    ∃ events operands, Parses options cluster arguments events operands := by
  -- every rule takes a byte off the cluster or the arguments
  induction hn : cluster.length + (arguments.map length).sum using Nat.strong_induction_on
    generalizing cluster arguments with
  | _ n ih =>
    cases cluster with
    | nil =>
      cases arguments with
      | nil => exact ⟨[], [], .done⟩
      | cons arg rest =>
        by_cases hplain : arg.head? ≠ some (byteOf '-') ∨ arg = ascii "-"
        · exact ⟨[], arg :: rest, .operand hplain⟩
        · rw [not_or, not_not] at hplain
          by_cases hdashes : arg = ascii "--"
          · subst hdashes
            exact ⟨[], rest, .dashes⟩
          · match arg, hplain, hdashes with
            | [], hplain, _ => cases hplain.1
            | [first], hplain, _ =>
              have hfirst : first = byteOf '-' := by simpa using hplain.1
              subst hfirst
              exact absurd rfl hplain.2
            | first :: c :: more, hplain, hdashes =>
              have hfirst : first = byteOf '-' := by simpa using hplain.1
              subst hfirst
              simp only [map_cons, length_cons, sum_cons, length_nil] at hn
              obtain ⟨events, operands, h⟩ := ih _ (by simp only [length_cons]; omega)
                (c :: more) rest rfl
              refine ⟨events, operands, .cluster ?_ h⟩
              intro heq
              rw [heq] at hdashes
              exact hdashes rfl
    | cons c more =>
      simp only [length_cons] at hn
      cases hc : takesArgument options c with
      | none =>
        obtain ⟨events, operands, h⟩ := ih _ (by omega) more arguments rfl
        exact ⟨_, operands, .unknown hc h⟩
      | some takes =>
        cases takes with
        | false =>
          obtain ⟨events, operands, h⟩ := ih _ (by omega) more arguments rfl
          exact ⟨_, operands, .flag hc h⟩
        | true =>
          cases more with
          | cons first more =>
            simp only [length_cons] at hn
            obtain ⟨events, operands, h⟩ := ih _ (by simp only [length_nil]; omega) []
              arguments rfl
            exact ⟨_, operands, .attached hc h⟩
          | nil =>
            cases arguments with
            | nil => exact ⟨_, _, .missing hc⟩
            | cons value rest =>
              simp only [map_cons, sum_cons] at hn
              obtain ⟨events, operands, h⟩ := ih _ (by simp only [length_nil]; omega) [] rest
                rfl
              exact ⟨_, operands, .separate hc h⟩

/-- The parse is one. -/
theorem Parses.unique {cluster : Bytes} {arguments : List Bytes} {events events' : List Event}
    {operands operands' : List Bytes} (h : Parses options cluster arguments events operands)
    (h' : Parses options cluster arguments events' operands') :
    events = events' ∧ operands = operands' := by
  induction h generalizing events' operands' with
  | done =>
    cases h'
    exact ⟨rfl, rfl⟩
  | operand hplain =>
    cases h' with
    | operand _ => exact ⟨rfl, rfl⟩
    | dashes => exact absurd hplain (by decide)
    | cluster _ _ => exact absurd hplain (by simp [ascii])
  | dashes =>
    generalize harg : ascii "--" = arg at h'
    cases h' with
    | operand hplain => exact absurd hplain (by rw [← harg]; decide)
    | dashes => exact ⟨rfl, rfl⟩
    | cluster hne _ => exact absurd (cons.inj harg).2.symm hne
  | @cluster c more rest events operands hne _ ih =>
    generalize harg : byteOf '-' :: c :: more = arg at h'
    cases h' with
    | operand hplain =>
      subst harg
      exact absurd hplain (by simp [ascii])
    | dashes => exact absurd (cons.inj harg).2 hne
    | cluster _ h' =>
      obtain ⟨rfl, rfl⟩ := cons.inj (cons.inj harg).2
      exact ih h'
  | unknown hc _ ih =>
    cases h' with
    | unknown _ h' =>
      obtain ⟨rfl, rfl⟩ := ih h'
      exact ⟨rfl, rfl⟩
    | _ => simp_all
  | flag hc _ ih =>
    cases h' with
    | flag _ h' =>
      obtain ⟨rfl, rfl⟩ := ih h'
      exact ⟨rfl, rfl⟩
    | _ => simp_all
  | attached hc _ ih =>
    cases h' with
    | attached _ h' =>
      obtain ⟨rfl, rfl⟩ := ih h'
      exact ⟨rfl, rfl⟩
    | _ => simp_all
  | separate hc _ ih =>
    cases h' with
    | separate _ h' =>
      obtain ⟨rfl, rfl⟩ := ih h'
      exact ⟨rfl, rfl⟩
    | _ => simp_all
  | missing hc =>
    cases h' with
    | missing _ => exact ⟨rfl, rfl⟩
    | _ => simp_all

/-! ### One call -/

/-- An option string that asks for silence, and its option characters. -/
def silentOf (spec : Bytes) : Bool := spec.head? == some (byteOf ':')

@[inherit_doc silentOf]
def optionsOf (spec : Bytes) : Bytes := if silentOf spec then spec.tail else spec

/-- What `getopts` puts into the variable it is given and into `OPTARG`. -/
def shown (silent : Bool) : Event → Bytes × Option Bytes
  | .option c argument => ([c], argument)
  | .unknown c => ([byteOf '?'], if silent then some [c] else none)
  | .missing c => if silent then ([byteOf ':'], some [c]) else ([byteOf '?'], none)

/-- The places of a call: between two arguments, or inside a cluster of options. -/
inductive At (args : List Bytes) : ℕ → ℕ → Bytes → List Bytes → Prop
  | between {index} (hpos : 1 ≤ index) (hle : index ≤ args.length + 1) :
      At args index 0 [] (args.drop (index - 1))
  | inside {index offset arg} (hpos : 1 ≤ index) (harg : args[index - 1]? = some arg)
      (hdash : arg.head? = some (byteOf '-')) (hne : arg ≠ ascii "--") (hlo : 1 < offset)
      (hhi : offset < arg.length) : At args index offset (arg.drop offset) (args.drop index)

variable {args : List Bytes} {index offset : ℕ}

theorem At.pos {cluster : Bytes} {rest : List Bytes} (h : At args index offset cluster rest) :
    1 ≤ index := by
  cases h with
  | between hpos _ => exact hpos
  | inside hpos _ _ _ _ _ => exact hpos

theorem At.le {cluster : Bytes} {rest : List Bytes} (h : At args index offset cluster rest) :
    index ≤ args.length + 1 := by
  cases h with
  | between _ hle => exact hle
  | inside hpos harg _ _ _ _ =>
    have hlt := (List.getElem?_eq_some_iff.mp harg).1
    omega

/-- The place behind an option. -/
theorem At.next {arg : Bytes} (hpos : 1 ≤ index) (harg : args[index - 1]? = some arg)
    (hdash : arg.head? = some (byteOf '-')) (hne : arg ≠ ascii "--") (hlo : 1 ≤ offset) :
    if arg.length ≤ offset + 1 then arg.drop (offset + 1) = [] ∧ At args (index + 1) 0 [] (args.drop index)
    else At args index (offset + 1) (arg.drop (offset + 1)) (args.drop index) := by
  have hlt := (List.getElem?_eq_some_iff.mp harg).1
  split
  · rename_i hend
    refine ⟨List.drop_eq_nil_of_le hend, ?_⟩
    exact At.between (by omega) (by omega)
  · rename_i hmore
    exact At.inside hpos harg hdash hne (by omega) (by omega)

theorem takesArgument_eq (options : Bytes) (c : UInt8) :
    takesArgument options c =
      match (if c == byteOf ':' || c == byteOf '?' then [] else options.dropWhile (· != c)) with
      | [] => none
      | _ :: rest => some (rest.head? == some (byteOf ':')) := by
  unfold takesArgument
  by_cases h : c = byteOf ':' ∨ c = byteOf '?'
  · rw [if_pos h, if_pos (by simpa using h)]
  · rw [if_neg h, if_neg (by simpa using h)]

/-- What a call has to find: the next event, and the place behind it. -/
structure Finds (args : List Bytes) (spec : Bytes) (operands : List Bytes) (e : Event)
    (events : List Event) (found : Found) : Prop where
  goes : found.ended = false
  shows : (found.output, found.value) = shown (silentOf spec) e
  place : ∃ cluster rest, At args found.index found.offset cluster rest ∧
    Parses (optionsOf spec) cluster rest events operands

/-- **An option of a cluster is the next event.** -/
theorem optionAt_spec {argument : ℕ → Option Bytes} {spec arg : Bytes} {events : List Event}
    {operands : List Bytes} (hargument : ∀ i, 1 ≤ i → argument i = args[i - 1]?) (hpos : 1 ≤ index)
    (harg : args[index - 1]? = some arg) (hdash : arg.head? = some (byteOf '-'))
    (hne : arg ≠ ascii "--") (hlo : 1 ≤ offset) (hhi : offset < arg.length)
    (h : Parses (optionsOf spec) (arg.drop offset) (args.drop index) events operands) :
    ∃ e events', events = e :: events' ∧
      Finds args spec operands e events' (optionAt argument spec index arg offset) := by
  have hlt := (List.getElem?_eq_some_iff.mp harg).1
  have hnext := At.next hpos harg hdash hne hlo
  have hcons : arg.drop offset = arg[offset] :: arg.drop (offset + 1) :=
    List.drop_eq_getElem_cons hhi
  have hbad : arg.getD offset 0 = arg[offset] := by
    rw [List.getD_eq_getElem?_getD, List.getElem?_eq_getElem hhi]
    rfl
  have htakes := takesArgument_eq (optionsOf spec) arg[offset]
  have hsame : (if spec.head? == some (byteOf ':') then spec.tail else spec) = optionsOf spec := rfl
  -- the place behind the option, whichever of its two forms it has
  have hplace : ∃ cluster, cluster = arg.drop (offset + 1) ∧
      At args (if arg.length ≤ offset + 1 then (index + 1, 0) else (index, offset + 1)).1
        (if arg.length ≤ offset + 1 then (index + 1, 0) else (index, offset + 1)).2 cluster
        (args.drop index) := by
    by_cases hend : arg.length ≤ offset + 1
    · rw [if_pos hend] at hnext
      simp only [if_pos hend]
      exact ⟨[], hnext.1.symm, hnext.2⟩
    · rw [if_neg hend] at hnext
      simp only [if_neg hend]
      exact ⟨_, rfl, hnext⟩
  obtain ⟨cluster, rfl, hplace⟩ := hplace
  unfold optionAt
  simp only [hsame, hbad]
  rw [hcons] at h
  generalize hfound : (if arg[offset] == byteOf ':' || arg[offset] == byteOf '?' then []
    else (optionsOf spec).dropWhile (· != arg[offset])) = found at htakes
  generalize hbehind : (if arg.length ≤ offset + 1 then (index + 1, 0) else (index, offset + 1)) =
    behind at hplace
  generalize harguments : args.drop index = rest at h hplace
  generalize hmore : arg.drop (offset + 1) = more at h hplace
  obtain ⟨index', offset'⟩ := behind
  cases found with
  | nil =>
    simp only at htakes
    simp only [List.isEmpty_nil, if_true]
    cases h with
    | unknown hc h => exact ⟨_, _, rfl, rfl, rfl, _, _, hplace, h⟩
    | _ => simp_all
  | cons first found =>
    simp only at htakes
    simp only [List.isEmpty_cons, Bool.false_eq_true, if_false, List.tail_cons]
    by_cases htakes' : (found.head? == some (byteOf ':')) = true
    · rw [if_pos htakes']
      rw [htakes'] at htakes
      by_cases hend : arg.length ≤ offset + 1
      · rw [if_pos hend] at hbehind
        obtain ⟨rfl, rfl⟩ := Prod.mk.inj hbehind
        have hnil : more = [] := by
          rw [← hmore]
          exact List.drop_eq_nil_of_le hend
        subst hnil
        have hvalue : argument (index + 1) = rest.head? := by
          rw [hargument _ (by omega), ← harguments, List.head?_drop]
          rfl
        simp only [ne_eq, not_true_eq_false, if_false, hvalue]
        cases h with
        | separate hc h =>
          -- the next argument is the argument of the option
          have hdrop := congrArg List.tail harguments
          rw [List.tail_drop] at hdrop
          have hlen : index < args.length := by
            have hne := congrArg List.length harguments
            simp only [List.length_drop, List.length_cons] at hne
            omega
          have hat := @At.between args (index + 2) (by omega) (by omega)
          rw [show index + 2 - 1 = index + 1 by omega, hdrop] at hat
          exact ⟨_, _, rfl, rfl, rfl, _, _, hat, h⟩
        | missing hc =>
          refine ⟨_, _, rfl, rfl, ?_, _, _, hplace, .done⟩
          simp only [List.head?_nil, shown]
          have hsilent : (spec.head? == some (byteOf ':')) = silentOf spec := rfl
          rw [hsilent]
          cases silentOf spec with
          | true => rfl
          | false => rfl
        | _ => simp_all
      · rw [if_neg hend] at hbehind
        obtain ⟨rfl, rfl⟩ := Prod.mk.inj hbehind
        have hne' : more ≠ [] := by
          rw [← hmore, ne_eq, List.drop_eq_nil_iff]
          exact hend
        simp only [ne_eq, Nat.add_eq_zero_iff, one_ne_zero, and_false, not_false_eq_true, if_true]
        cases h with
        | attached hc h =>
          have hat := @At.between args (index + 1) (by omega) (by omega)
          rw [show index + 1 - 1 = index by omega, harguments] at hat
          exact ⟨_, _, rfl, rfl, by rw [hmore]; rfl, _, _, hat, h⟩
        | separate _ _ => exact absurd rfl hne'
        | missing _ => exact absurd rfl hne'
        | _ => simp_all
    · rw [if_neg htakes']
      rw [Bool.not_eq_true] at htakes'
      rw [htakes'] at htakes
      cases h with
      | flag hc h => exact ⟨_, _, rfl, rfl, rfl, _, _, hplace, h⟩
      | _ => simp_all

/-- What the call behind the last event finds: the operands. -/
structure Ends (args operands : List Bytes) (found : Found) : Prop where
  ended : found.ended = true
  output : found.output = [byteOf '?']
  value : found.value = none
  offset : found.offset = 0
  index : found.index = args.length - operands.length + 1

/-- What one call finds, by the events that are left. -/
def Scans (args : List Bytes) (spec : Bytes) (operands : List Bytes) : List Event → Found → Prop
  | [], found => Ends args operands found
  | e :: events, found => Finds args spec operands e events found

/-- **One call finds the next event**, or the operands when there is none. -/
theorem scanOption_spec {argument : ℕ → Option Bytes} {spec cluster : Bytes}
    {rest : List Bytes} {events : List Event} {operands : List Bytes}
    (hargument : ∀ i, 1 ≤ i → argument i = args[i - 1]?) (hat : At args index offset cluster rest)
    (h : Parses (optionsOf spec) cluster rest events operands) :
    Scans args spec operands events (scanOption argument spec index offset) := by
  have key : ∀ {arg : Bytes} {o : ℕ}, args[index - 1]? = some arg →
      arg.head? = some (byteOf '-') → arg ≠ ascii "--" → arg.length ≠ 1 → 1 ≤ o → o < arg.length →
      (if offset = 0 ∨ arg.length ≤ offset then 1 else offset) = o →
      Parses (optionsOf spec) (arg.drop o) (args.drop index) events operands →
      Scans args spec operands events (scanOption argument spec index offset) := by
    intro arg o harg hdash hne hlen hlo hhi hoffset hparses
    have hscan : scanOption argument spec index offset = optionAt argument spec index arg o := by
      unfold scanOption
      rw [hargument index hat.pos, harg, hoffset.symm]
      simp only
      rw [if_neg (by simp [hdash, hne, hlen])]
    obtain ⟨e, events', rfl, hfinds⟩ := optionAt_spec hargument hat.pos harg hdash hne hlo hhi hparses
    rw [hscan]
    exact hfinds
  cases hat with
  | between hpos hle =>
    generalize hrest : args.drop (index - 1) = rest at h
    have hhead : args[index - 1]? = rest.head? := by rw [← hrest, head?_drop]
    have hlength := congrArg length hrest
    rw [length_drop] at hlength
    cases h with
    | done =>
      have hscan : scanOption argument spec index 0 = { index, offset := 0, ended := true } := by
        unfold scanOption
        rw [hargument index hpos, hhead]
        rfl
      rw [hscan]
      refine ⟨rfl, rfl, rfl, rfl, ?_⟩
      simp only [length_nil] at hlength ⊢
      omega
    | @operand arg rest hplain =>
      have hscan : scanOption argument spec index 0 = { index, offset := 0, ended := true } := by
        unfold scanOption
        rw [hargument index hpos, hhead]
        simp only [head?_cons]
        have hstop : (arg.head? != some (byteOf '-') || arg.length == 1 || arg == ascii "--") = true := by
          rcases hplain with hplain | rfl
          · simp [hplain]
          · rfl
        have hno : (arg == ascii "--") = false := by
          rw [beq_eq_false_iff_ne]
          rintro rfl
          exact absurd hplain (by decide)
        rw [if_pos hstop, hno]
        rfl
      rw [hscan]
      refine ⟨rfl, rfl, rfl, rfl, ?_⟩
      simp only [length_cons] at hlength ⊢
      omega
    | dashes =>
      have hscan : scanOption argument spec index 0 =
          { index := index + 1, offset := 0, ended := true } := by
        unfold scanOption
        rw [hargument index hpos, hhead]
        rfl
      rw [hscan]
      refine ⟨rfl, rfl, rfl, rfl, ?_⟩
      simp only [length_cons] at hlength ⊢
      omega
    | @cluster c more rest _ _ hne h =>
      apply key hhead rfl ?_ (by simp) (Nat.le_refl 1) (by simp) (by simp)
      · have hdrop := congrArg tail hrest
        rw [tail_drop, show index - 1 + 1 = index by omega] at hdrop
        rw [hdrop]
        exact h
      · intro heq
        exact hne (cons.inj heq).2
  | inside _ harg hdash hne hlo hhi =>
    apply key harg hdash hne (by omega) (by omega) hhi ?_ h
    rw [if_neg (by omega)]

/-! ### The number in `OPTIND` -/

/-- A decimal digit is its value. -/
theorem digit_of_digitValue {byte : UInt8} {d : ℕ} (h : Arithmetic.digitValue byte = some d)
    (hd : d < 10) : digit byte = true ∧ byte.toNat - '0'.toNat = d := by
  unfold Arithmetic.digitValue at h
  split at h
  · rename_i hdigit
    exact ⟨hdigit, Option.some.inj h⟩
  · split at h
    · have := Option.some.inj h
      omega
    · split at h
      · have := Option.some.inj h
        omega
      · cases h

/-- `strtoumax` reads what `%zu` prints. -/
theorem strtoumax_numeral {n : ℕ} (hn : n < 2 ^ 64) : strtoumax (Arithmetic.numeral n) = some n := by
  obtain ⟨ds, hds, hvalue⟩ := Arithmetic.digits_numeral n
  obtain ⟨first, rest, heq, hfirst, -⟩ := Arithmetic.numeral_head n
  have hspelled : ∀ {text : Bytes} {ds : List ℕ}, Arithmetic.Digits 10 text ds →
      (∀ byte ∈ text, digit byte = true) ∧
        ∀ m, text.foldl (fun n byte => n * 10 + (byte.toNat - '0'.toNat)) m =
          ds.foldl (fun n d => n * 10 + d) m := by
    intro text ds h
    induction h with
    | nil => exact ⟨by simp, fun _ => rfl⟩
    | @cons byte d text ds hd _ ih =>
      obtain ⟨hdigit, hbyte⟩ := digit_of_digitValue hd.1 hd.2
      refine ⟨?_, ?_⟩
      · intro byte' hmem
        rcases mem_cons.mp hmem with rfl | hmem
        · exact hdigit
        · exact ih.1 byte' hmem
      · intro m
        rw [foldl_cons, foldl_cons, hbyte, ih.2]
  obtain ⟨hall, hfold⟩ := hspelled hds
  -- the first digit is no white space and no sign
  have hplain : ∀ byte : UInt8, digit byte = true → Arithmetic.space byte = false ∧
      byte ≠ byteOf '-' ∧ byte ≠ byteOf '+' := by
    apply forall_byte
    decide +kernel
  obtain ⟨hspace, hminus, hplus⟩ := hplain first hfirst
  have hskip : (Arithmetic.numeral n).dropWhile Arithmetic.space = Arithmetic.numeral n := by
    rw [heq, dropWhile_cons_of_neg (by simp [hspace])]
  have hsign : ((Arithmetic.numeral n).head? == some (byteOf '-')) = false ∧
      ((Arithmetic.numeral n).head? == some (byteOf '+')) = false := by
    rw [heq]
    simp [hminus, hplus]
  have hnonempty : (Arithmetic.numeral n).isEmpty = false := by rw [heq]; rfl
  have hdigits : (Arithmetic.numeral n).all digit = true := all_eq_true.mpr hall
  unfold strtoumax
  simp only [hskip, hsign.1, hsign.2, Bool.or_self, Bool.false_eq_true, if_false, hnonempty, hdigits,
    Bool.not_true, hfold, Numeral.foldl_eq_ofDigits, hvalue]
  rw [if_neg (by omega)]

theorem decimal_ofNat (n : ℕ) : Arithmetic.decimal (n : ℤ) = Arithmetic.numeral n := by
  unfold Arithmetic.decimal
  rw [if_neg (by omega)]
  rfl

variable {F : Type} {s s' : State F} {name : Bytes} {explicit : List Bytes}

/-- The index a call publishes is the one the next call reads. -/
theorem optind_eq {n : ℕ} (h : valueOf s (ascii "OPTIND") = some (Arithmetic.decimal n))
    (hpos : 1 ≤ n) (hn : n < 2 ^ 64) : optind s = some n := by
  have hvalid : validName (ascii "OPTIND") = true := by decide
  rw [valueOf, ← State.value_getVariable hvalid, decimal_ofNat] at h
  obtain ⟨first, rest, heq, hfirst, -⟩ := Arithmetic.numeral_head n
  have hminus : first ≠ byteOf '-' := by
    rintro rfl
    revert hfirst
    decide
  have hno : ((Arithmetic.numeral n).isEmpty ||
      (Arithmetic.numeral n).head? == some (byteOf '-')) = false := by
    rw [heq]
    simp [hminus]
  unfold optind
  simp only [h, hno, Bool.false_eq_true, if_false, strtoumax_numeral hn]
  rw [if_neg (by omega)]

/-! ### Runs of calls -/

/-- What stands between two calls. -/
structure Standing (s : State F) (name : Bytes) (index offset : ℕ) : Prop where
  reachable : s.Reachable
  optind : valueOf s (ascii "OPTIND") = some (Arithmetic.decimal index)
  offset : s.getoptsOffset = offset
  name : Writable s name
  optarg : Writable s (ascii "OPTARG")
  index : Writable s (ascii "OPTIND")

/-- **A call publishes what it has found.** -/
theorem publish_spec (hstanding : Standing s name index offset) (hoptarg : name ≠ ascii "OPTARG")
    (hoptind : name ≠ ascii "OPTIND") (found : Found) :
    ∃ s', publish s name found = ⟨if found.ended then 1 else 0, s', found.diagnostics⟩ ∧
      valueOf s' name = some found.output ∧ valueOf s' (ascii "OPTARG") = found.value ∧
      Standing s' name found.index found.offset ∧ s'.arguments = s.arguments ∧
      s'.info = s.info := by
  have hne : ascii "OPTARG" ≠ ascii "OPTIND" := by decide
  obtain ⟨s₁, hassign₁, h₁⟩ := hstanding.name.assign hstanding.reachable (some found.output)
  obtain ⟨s₂, hassign₂, h₂⟩ := (h₁.writable _ hstanding.optarg).assign h₁.reachable found.value
  obtain ⟨s₃, hassign₃, h₃⟩ := (h₂.writable _ (h₁.writable _ hstanding.index)).assign h₂.reachable
    (some (Arithmetic.decimal found.index))
  refine ⟨s₃.setGetoptsOffset found.offset, ?_, ?_, ?_, ?_, ?_, ?_⟩
  · unfold publish
    simp only [hassign₁, hassign₂, hassign₃]
  · have hname := h₁.value
    rw [valueOf, ← h₂.other name hoptarg.symm, ← h₃.other name hoptind.symm] at hname
    exact hname
  · have harg := h₂.value
    rw [valueOf, ← h₃.other _ hne.symm] at harg
    exact harg
  · exact ⟨h₃.reachable.setGetoptsOffset _, h₃.value, rfl,
      h₃.writable _ (h₂.writable _ (h₁.writable _ hstanding.name)),
      h₃.writable _ (h₂.writable _ (h₁.writable _ hstanding.optarg)),
      h₃.writable _ (h₂.writable _ (h₁.writable _ hstanding.index))⟩
  · exact h₃.arguments.trans (h₂.arguments.trans h₁.arguments)
  · exact h₃.info.trans (h₂.info.trans h₁.info)

/-- The arguments `getopts` parses: its operands, or the positional parameters. -/
def argumentsOf (s : State F) (explicit : List Bytes) : List Bytes :=
  if explicit.isEmpty then s.arguments else explicit

theorem optionArgument_eq (hs : s.Reachable) (explicit : List Bytes) (i : ℕ) (hi : 1 ≤ i) :
    optionArgument s explicit i = (argumentsOf s explicit)[i - 1]? := by
  unfold optionArgument argumentsOf
  split
  · obtain ⟨i, rfl⟩ := Nat.exists_eq_succ_of_ne_zero (Nat.ne_of_gt hi)
    have hcount := hs.wellFormed.argument_count
    unfold State.parameter
    split
    · rename_i hlt
      rw [eq_comm, getElem?_eq_none_iff]
      omega
    · rfl
  · rfl

/-- **The reports of successive calls**: the value of the variable and of `OPTARG` after
each call of status 0, up to the call of status 1. -/
inductive Yields (name : Bytes) (words : List Bytes) :
    State F → List (Bytes × Option Bytes) → State F → Prop
  | stop {s s' : State F} {diagnostics} (h : getoptsBuiltin s words = ⟨1, s', diagnostics⟩) :
      Yields name words s [] s'
  | report {s s' s'' : State F} {output value reports} {diagnostics}
      (h : getoptsBuiltin s words = ⟨0, s', diagnostics⟩) (houtput : valueOf s' name = some output)
      (hvalue : valueOf s' (ascii "OPTARG") = value) (hrest : Yields name words s' reports s'') :
      Yields name words s ((output, value) :: reports) s''

/-- The calls from any place report what is left of the parse. -/
theorem yields_of_parses {spec : Bytes} {words : List Bytes}
    (hoptarg : name ≠ ascii "OPTARG") (hoptind : name ≠ ascii "OPTIND")
    (hwords : (if words.head? == some (ascii "--") then words.tail else words) =
      spec :: name :: explicit) (events : List Event) :
    ∀ {s : State F} {index offset : ℕ} {cluster : Bytes} {rest operands : List Bytes},
      Standing s name index offset → (argumentsOf s explicit).length + 1 < 2 ^ 64 →
      At (argumentsOf s explicit) index offset cluster rest →
      Parses (optionsOf spec) cluster rest events operands →
      ∃ s', Yields name words s (events.map (shown (silentOf spec))) s' ∧
        valueOf s' (ascii "OPTIND") =
          some (Arithmetic.decimal ((argumentsOf s explicit).length - operands.length + 1 : ℕ)) := by
  induction events with
  | nil =>
    intro s index offset cluster rest operands hstanding hsize hat hparses
    have hscan := scanOption_spec (optionArgument_eq hstanding.reachable explicit) hat hparses
    have hindex := optind_eq hstanding.optind hat.pos (by have := hat.le; omega)
    obtain ⟨s', hpublish, -, -, hstanding', -, -⟩ := publish_spec hstanding hoptarg hoptind
      (scanOption (optionArgument s explicit) spec index offset)
    rw [if_pos hscan.ended] at hpublish
    have hcall : getoptsBuiltin s words =
        publish s name (scanOption (optionArgument s explicit) spec index offset) := by
      unfold getoptsBuiltin
      simp only [hwords, hindex, hstanding.offset]
    refine ⟨s', .stop (hcall.trans hpublish), ?_⟩
    rw [hstanding'.optind, hscan.index]
  | cons e events ih =>
    intro s index offset cluster rest operands hstanding hsize hat hparses
    have hscan := scanOption_spec (optionArgument_eq hstanding.reachable explicit) hat hparses
    have hindex := optind_eq hstanding.optind hat.pos (by have := hat.le; omega)
    obtain ⟨s', hpublish, hname, hvalue, hstanding', harguments, -⟩ := publish_spec hstanding hoptarg
      hoptind (scanOption (optionArgument s explicit) spec index offset)
    obtain ⟨cluster', rest', hat', hparses'⟩ := hscan.place
    have hsame : argumentsOf s' explicit = argumentsOf s explicit := by
      rw [argumentsOf, argumentsOf, harguments]
    rw [← hsame] at hat' hsize
    obtain ⟨s'', hyields, hend⟩ := ih hstanding' hsize hat' hparses'
    rw [if_neg (by rw [hscan.goes]; decide)] at hpublish
    have hcall : getoptsBuiltin s words =
        publish s name (scanOption (optionArgument s explicit) spec index offset) := by
      unfold getoptsBuiltin
      simp only [hwords, hindex, hstanding.offset]
    refine ⟨s'', ?_, ?_⟩
    · rw [map_cons, ← hscan.shows]
      exact .report (hcall.trans hpublish) hname hvalue hyields
    · rw [hend, hsame]

/-- The state in which the calls begin: `OPTIND=1` has just been assigned. -/
theorem standing_start (hs : s.Reachable) (hname : Writable s name)
    (hoptarg : Writable s (ascii "OPTARG")) (hoptind : Writable s (ascii "OPTIND")) :
    Standing (s.setVariable (ascii "OPTIND") (ascii "1")).2 name 1 0 := by
  obtain ⟨s', hassign, h⟩ := hoptind.assign hs (some (ascii "1"))
  have hsame : s' = (s.setVariable (ascii "OPTIND") (ascii "1")).2 := by
    have hset := State.setVariable_writable hoptind.1 hoptind.2 (ascii "1")
    unfold Utility.assign at hassign
    simp only [hset] at hassign
    exact (congrArg Prod.snd hassign).symm
  rw [← hsame]
  refine ⟨h.reachable, h.value, ?_, h.writable _ hname, h.writable _ hoptarg, h.writable _ hoptind⟩
  rw [hsame, State.getoptsOffset_setVariable, if_pos ⟨rfl, hoptind.2⟩]

/-- **The calls of `getopts` report the parse of the arguments.**  From `OPTIND=1` on, with
variables that take values, the calls of status 0 report the events of the one parse of the
arguments in order, the call behind them has status 1, and `OPTIND` is then the index of
the first operand.  The indices are `size_t`s. -/
theorem getopts_parses {spec : Bytes} {words : List Bytes} (hs : s.Reachable)
    (hwords : (if words.head? == some (ascii "--") then words.tail else words) =
      spec :: name :: explicit)
    (hname : Writable s name) (hoptarg : Writable s (ascii "OPTARG"))
    (hoptind : Writable s (ascii "OPTIND")) (hne : name ≠ ascii "OPTARG")
    (hne' : name ≠ ascii "OPTIND") (hsize : (argumentsOf s explicit).length + 1 < 2 ^ 64) :
    ∃ events operands s',
      Parses (optionsOf spec) [] (argumentsOf s explicit) events operands ∧
      (∀ events' operands',
        Parses (optionsOf spec) [] (argumentsOf s explicit) events' operands' →
          events' = events ∧ operands' = operands) ∧
      Yields name words (s.setVariable (ascii "OPTIND") (ascii "1")).2
        (events.map (shown (silentOf spec))) s' ∧
      valueOf s' (ascii "OPTIND") =
        some (Arithmetic.decimal ((argumentsOf s explicit).length - operands.length + 1 : ℕ)) := by
  have hsame : argumentsOf (s.setVariable (ascii "OPTIND") (ascii "1")).2 explicit =
      argumentsOf s explicit := by
    rw [argumentsOf, argumentsOf, (State.beside_setVariable s _ _).arguments]
  obtain ⟨events, operands, hparses⟩ := parses_total (optionsOf spec) [] (argumentsOf s explicit)
  have hat := @At.between (argumentsOf s explicit) 1 (Nat.le_refl 1) (by omega)
  rw [Nat.sub_self, drop_zero, ← hsame] at hat
  obtain ⟨s', hyields, hend⟩ := yields_of_parses hne hne' hwords events
    (standing_start hs hname hoptarg hoptind) (by rwa [hsame]) hat (by rwa [hsame])
  rw [hsame] at hend
  exact ⟨events, operands, s', hparses, fun _ _ h => h.unique hparses, hyields, hend⟩

/-- The arguments `-ab value -x file` for the option string `ab:`. -/
theorem getopts_parses_cluster : ∃ events operands,
    ∃ s' : State Unit,
      Parses (ascii "ab:") [] [ascii "-ab", ascii "value", ascii "-x", ascii "file"] events operands ∧
      Yields (ascii "opt")
        [ascii "ab:", ascii "opt", ascii "-ab", ascii "value", ascii "-x", ascii "file"]
        (State.setVariable (.create [] [] [] 1 .stdin 0 false : State Unit) (ascii "OPTIND")
          (ascii "1")).2
        (events.map (shown false)) s' := by
  have hwritable : ∀ x ∈ [ascii "opt", ascii "OPTARG", ascii "OPTIND"],
      Writable (.create [] [] [] 1 .stdin 0 false : State Unit) x := by
    intro x hx
    simp only [mem_cons, not_mem_nil, or_false] at hx
    rcases hx with rfl | rfl | rfl <;> exact ⟨by decide, by decide⟩
  obtain ⟨events, operands, s', hparses, -, hyields, -⟩ := @getopts_parses Unit _ (ascii "opt")
    [ascii "-ab", ascii "value", ascii "-x", ascii "file"] (ascii "ab:")
    [ascii "ab:", ascii "opt", ascii "-ab", ascii "value", ascii "-x", ascii "file"] (.create ..) (by decide) (hwritable _ (by simp)) (hwritable _ (by simp))
    (hwritable _ (by simp)) (by decide) (by decide) (by decide)
  exact ⟨events, operands, s', hparses, hyields⟩

end Utility
end CShell
