import Mathlib.Data.List.TakeWhile
import CShell.Arithmetic.Grammar

/-!
# Tokens and constants

The lexical half of the evaluator against its reference: `next_token` cuts a text
into the tokens of maximal munch, and the saturating digit loop of `literal`
computes the magnitude of a constant as far as it matters.

## Main results

* `tokenises_iff` — **the tokens `next_token` finds one by one are the maximal-munch
  tokens of the text.**
* `literal_eq` — `literal` is `constant`, classified against `2^63`.
-/

namespace CShell
namespace Arithmetic

open List

/-! ### The operator table

Its entries come longest first, so the first one that fits is the longest. -/

theorem operators_sorted : operators.Pairwise fun a b => b.1.length ≤ a.1.length := by decide

/-- No operator is empty, starts like a word or starts with white space. -/
theorem operators_head : ∀ op ∈ operators,
    ∃ byte ∈ op.1.head?, nameByte byte = false ∧ space byte = false := by decide

theorem operators_spelling : (operators.map Prod.fst).Nodup := by decide

theorem operators_kind : ∀ op ∈ operators, op.2 ≠ .eot := by decide

/-- Two operators with one spelling are one. -/
theorem kind_unique {o : Bytes} {k k' : Token} (h : (o, k) ∈ operators)
    (h' : (o, k') ∈ operators) : k = k' := by
  have := inj_on_of_nodup_map operators_spelling h h' rfl
  exact congrArg Prod.snd this

/-- The first entry that fits is the longest operator that fits. -/
theorem find?_operators {text : Bytes} {op : Bytes × Token}
    (h : operators.find? (fun op => op.1.isPrefixOf text) = some op) :
    op ∈ operators ∧ op.1 <+: text ∧
      ∀ o' k', (o', k') ∈ operators → o' <+: text → o'.length ≤ op.1.length := by
  obtain ⟨hfit, before, after, heq, hbefore⟩ := find?_eq_some_iff_append.mp h
  refine ⟨by rw [heq]; simp, isPrefixOf_iff_prefix.mp hfit, ?_⟩
  intro o' k' hmem hpre
  have hsorted := operators_sorted
  rw [heq] at hmem hsorted
  rcases mem_append.mp hmem with hb | hb
  · -- an earlier entry does not fit
    have := hbefore _ hb
    rw [List.isPrefixOf_iff_prefix.mpr hpre] at this
    cases this
  · rcases mem_cons.mp hb with he | ha
    · rw [← he]
    · have htail := (pairwise_append.mp hsorted).2.1
      exact (pairwise_cons.mp htail).1 _ ha

/-! ### Scanning -/

theorem space_nameByte {byte : UInt8} (h : nameByte byte = true) : space byte = false := by
  cases hs : space byte with
  | false => rfl
  | true =>
    simp only [space, Bool.or_eq_true, beq_iff_eq] at hs
    rcases hs with ((((rfl | rfl) | rfl) | rfl) | rfl) | rfl <;> exact absurd h (by decide)

@[simp] theorem scan_nil : scan [] = ⟨.eot, [], []⟩ := rfl

theorem scan_space {byte : UInt8} {rest : Bytes} (h : space byte = true) :
    scan (byte :: rest) = scan rest := by
  simp [scan, h]

theorem scan_of_not_space {byte : UInt8} {rest : Bytes} (h : space byte = false) :
    scan (byte :: rest) = scanWord (byte :: rest) := by
  simp [scan, h]

theorem takeWhile_append_of_stop {p : UInt8 → Bool} {w rest : Bytes} (hw : ∀ b ∈ w, p b = true)
    (hmax : ∀ b ∈ rest.head?, p b = false) :
    (w ++ rest).takeWhile p = w ∧ (w ++ rest).dropWhile p = rest := by
  induction w with
  | nil =>
    cases rest with
    | nil => simp
    | cons b rest =>
      have hb : p b = false := hmax b (by simp)
      simp [hb]
  | cons b w ih =>
    have hb : p b = true := hw b (by simp)
    have ih' := ih fun b' h => hw b' (by simp [h])
    simp [hb, ih'.1, ih'.2]

theorem scan_word {w rest : Bytes} (hne : w ≠ []) (hw : ∀ b ∈ w, nameByte b = true)
    (hmax : ∀ b ∈ rest.head?, nameByte b = false) :
    scan (w ++ rest) = ⟨wordKind w, w, rest⟩ := by
  cases w with
  | nil => exact absurd rfl hne
  | cons b w =>
    have hb : nameByte b = true := hw b (by simp)
    have hcut := takeWhile_append_of_stop (fun b' h => hw b' (mem_cons_of_mem _ h)) hmax
    rw [cons_append, scan_of_not_space (space_nameByte hb)]
    simp [scanWord, hb, hcut.1, hcut.2, wordKind]

theorem scan_operator {o : Bytes} {k : Token} {rest : Bytes} (hop : (o, k) ∈ operators)
    (hmax : ∀ o' k', (o', k') ∈ operators → o' <+: o ++ rest → o'.length ≤ o.length) :
    scan (o ++ rest) = ⟨k, o, rest⟩ := by
  obtain ⟨byte, hhead, hname, hspace⟩ := operators_head _ hop
  cases o with
  | nil => simp at hhead
  | cons b o =>
    obtain rfl : b = byte := by simpa using hhead
    rw [cons_append, scan_of_not_space hspace, scanWord, if_neg (by simp [hname])]
    rw [← cons_append]
    cases hf : operators.find? (fun op => op.1.isPrefixOf (b :: o ++ rest)) with
    | none =>
      have := find?_eq_none.mp hf _ hop
      simp at this
    | some op =>
      obtain ⟨hmem, hpre, hlong⟩ := find?_operators hf
      -- both are the longest operator that fits, hence equally long, hence equal
      have hle : op.1.length ≤ (b :: o).length := hmax op.1 op.2 hmem hpre
      have hge : (b :: o).length ≤ op.1.length := hlong _ k hop (prefix_append _ _)
      have heq : op.1 = b :: o :=
        (prefix_of_prefix_length_le hpre (prefix_append _ _) hle).eq_of_length
          (by omega)
      obtain ⟨o', k'⟩ := op
      simp only at heq
      subst heq
      obtain rfl : k' = k := kind_unique hmem hop
      simp

theorem scan_stray {byte : UInt8} {rest : Bytes} (hspace : space byte = false)
    (hname : nameByte byte = false) (hop : ∀ o k, (o, k) ∈ operators → ¬ o <+: byte :: rest) :
    scan (byte :: rest) = ⟨.bad, [byte], rest⟩ := by
  rw [scan_of_not_space hspace, scanWord, if_neg (by simp [hname])]
  have hf : operators.find? (fun op => op.1.isPrefixOf (byte :: rest)) = none := by
    rw [find?_eq_none]
    intro op hmem hpre
    exact hop op.1 op.2 hmem (List.isPrefixOf_iff_prefix.mp hpre)
  rw [hf]

/-- What lies at the front of a text, as the rules of `Tokenises` see it. -/
theorem front_cases (text : Bytes) :
    text = [] ∨
    (∃ byte rest, text = byte :: rest ∧ space byte = true) ∨
    (∃ w rest, text = w ++ rest ∧ w ≠ [] ∧ (∀ b ∈ w, nameByte b = true) ∧
      ∀ b ∈ rest.head?, nameByte b = false) ∨
    (∃ o k rest, text = o ++ rest ∧ (o, k) ∈ operators ∧
      ∀ o' k', (o', k') ∈ operators → o' <+: o ++ rest → o'.length ≤ o.length) ∨
    (∃ byte rest, text = byte :: rest ∧ space byte = false ∧ nameByte byte = false ∧
      ∀ o k, (o, k) ∈ operators → ¬ o <+: byte :: rest) := by
  cases text with
  | nil => exact Or.inl rfl
  | cons byte rest =>
    refine Or.inr ?_
    by_cases hspace : space byte = true
    · exact Or.inl ⟨byte, rest, rfl, hspace⟩
    refine Or.inr ?_
    by_cases hname : nameByte byte = true
    · refine Or.inl ⟨byte :: rest.takeWhile nameByte, rest.dropWhile nameByte, ?_, by simp, ?_, ?_⟩
      · simp
      · intro b hb
        rcases mem_cons.mp hb with rfl | hb
        · exact hname
        · exact mem_takeWhile_imp hb
      · intro b hb
        have := head?_dropWhile_not nameByte rest
        simpa [Option.mem_def.mp hb] using this
    refine Or.inr ?_
    cases hf : operators.find? (fun op => op.1.isPrefixOf (byte :: rest)) with
    | some op =>
      obtain ⟨hmem, ⟨rest', hrest'⟩, hlong⟩ := find?_operators hf
      refine Or.inl ⟨op.1, op.2, rest', hrest'.symm, hmem, ?_⟩
      rw [hrest']
      exact hlong
    | none =>
      refine Or.inr ⟨byte, rest, rfl, by simpa using hspace, by simpa using hname, ?_⟩
      intro o k hmem hpre
      have := find?_eq_none.mp hf _ hmem
      exact this (List.isPrefixOf_iff_prefix.mpr hpre)

theorem wordKind_ne_eot (w : Bytes) : wordKind w ≠ .eot := by
  cases w with
  | nil => simp [wordKind]
  | cons b w => simp only [wordKind]; split <;> simp

/-- `next_token` moves on, except at the end of the text. -/
theorem scan_next_length (text : Bytes) :
    (scan text).token = .eot ∧ (scan text).next = [] ∨
      (scan text).token ≠ .eot ∧ (scan text).next.length < text.length := by
  induction text with
  | nil => exact Or.inl ⟨rfl, rfl⟩
  | cons byte rest ih =>
    rcases front_cases (byte :: rest) with h | ⟨b, r, h, hs⟩ | ⟨w, r, h, hne, hw, hmax⟩ |
      ⟨o, k, r, h, hop, hmax⟩ | ⟨b, r, h, hs, hn, hop⟩
    · cases h
    · cases h
      rw [scan_space hs]
      exact ih.imp id fun h => ⟨h.1, by simp only [length_cons]; omega⟩
    · have hpos : 0 < w.length := length_pos_iff.mpr hne
      rw [h, scan_word hne hw hmax]
      exact Or.inr ⟨wordKind_ne_eot w, by simp; omega⟩
    · obtain ⟨byte', hhead, -⟩ := operators_head _ hop
      have hpos : 0 < o.length := by
        cases o with
        | nil => simp at hhead
        | cons _ _ => simp
      rw [h, scan_operator hop hmax]
      exact Or.inr ⟨operators_kind _ hop, by simp; omega⟩
    · cases h
      rw [scan_stray hs hn hop]
      exact Or.inr ⟨by simp, by simp⟩

/-- The tokens `next_token` finds in a text, one after another. -/
def tokens (text : Bytes) : List Tok :=
  if _h : (scan text).token = .eot then []
  else ⟨(scan text).token, (scan text).lexeme⟩ :: tokens (scan text).next
termination_by text.length
decreasing_by exact ((scan_next_length text).resolve_left fun h' => _h h'.1).2

theorem tokens_eq_nil {text : Bytes} (h : (scan text).token = .eot) : tokens text = [] := by
  rw [tokens, dif_pos h]

theorem tokens_eq_cons {text : Bytes} (h : (scan text).token ≠ .eot) :
    tokens text = ⟨(scan text).token, (scan text).lexeme⟩ :: tokens (scan text).next := by
  rw [tokens, dif_neg h]

theorem tokens_congr {text text' : Bytes} (h : scan text = scan text') :
    tokens text = tokens text' := by
  by_cases ht : (scan text').token = .eot
  · rw [tokens_eq_nil (h ▸ ht), tokens_eq_nil ht]
  · rw [tokens_eq_cons (h ▸ ht), tokens_eq_cons ht, h]

theorem Tokenises.eq_tokens {text : Bytes} {ts : List Tok} (h : Tokenises text ts) :
    ts = tokens text := by
  induction h with
  | nil => exact (tokens_eq_nil (by simp)).symm
  | space hs _ ih => rw [ih]; exact (tokens_congr (scan_space hs)).symm
  | word hne hw hmax _ ih =>
    rw [tokens_eq_cons (by rw [scan_word hne hw hmax]; exact wordKind_ne_eot _),
      scan_word hne hw hmax, ih]
  | operator hop hmax _ ih =>
    rw [tokens_eq_cons (by rw [scan_operator hop hmax]; exact operators_kind _ hop),
      scan_operator hop hmax, ih]
  | stray hs hn hop _ ih =>
    rw [tokens_eq_cons (by rw [scan_stray hs hn hop]; simp), scan_stray hs hn hop, ih]

theorem tokenises_tokens (text : Bytes) : Tokenises text (tokens text) := by
  -- strong induction on the length: every rule leaves a shorter text
  induction hlen : text.length using Nat.strong_induction_on generalizing text with
  | _ n ih =>
    rcases front_cases text with h | ⟨b, r, h, hs⟩ | ⟨w, r, h, hne, hw, hmax⟩ |
      ⟨o, k, r, h, hop, hmax⟩ | ⟨b, r, h, hs, hn, hop⟩
    · subst h
      rw [tokens_eq_nil (by simp)]
      exact .nil
    · subst h
      rw [tokens_congr (scan_space hs)]
      exact .space hs (ih r.length (by simp at hlen; omega) r rfl)
    · subst h
      have hpos : 0 < w.length := length_pos_iff.mpr hne
      rw [tokens_eq_cons (by rw [scan_word hne hw hmax]; exact wordKind_ne_eot _),
        scan_word hne hw hmax]
      exact .word hne hw hmax (ih r.length (by simp at hlen; omega) r rfl)
    · subst h
      obtain ⟨byte', hhead, -⟩ := operators_head _ hop
      have hpos : 0 < o.length := by
        cases o with
        | nil => simp at hhead
        | cons _ _ => simp
      rw [tokens_eq_cons (by rw [scan_operator hop hmax]; exact operators_kind _ hop),
        scan_operator hop hmax]
      exact .operator hop hmax (ih r.length (by simp at hlen; omega) r rfl)
    · subst h
      rw [tokens_eq_cons (by rw [scan_stray hs hn hop]; simp), scan_stray hs hn hop]
      exact .stray hs hn hop (ih r.length (by simp at hlen; omega) r rfl)

/-- **The tokens `next_token` finds are the maximal-munch tokens.** -/
theorem tokenises_iff {text : Bytes} {ts : List Tok} : Tokenises text ts ↔ ts = tokens text :=
  ⟨Tokenises.eq_tokens, fun h => h ▸ tokenises_tokens text⟩

/-! ### Constants -/

/-- What `literal` keeps of a magnitude. -/
def classify (n : ℕ) : Value :=
  { number := if n < 2 ^ 63 then (n : ℤ) else 0,
    high := if n < 2 ^ 63 then 0 else if n = 2 ^ 63 then 1 else 2 }

/-- The saturating accumulator of the digit loop stands for the magnitude `n`. -/
def Accumulates (magnitude : ℕ) (tooLarge : Bool) (n : ℕ) : Prop :=
  (tooLarge = false ∧ magnitude = n ∧ n ≤ 2 ^ 63) ∨ (tooLarge = true ∧ 2 ^ 63 < n)

theorem literalLoop_spec {base : ℕ} (hbase : 2 ≤ base ∧ base ≤ 16) (digits : Bytes) :
    ∀ magnitude tooLarge n, Accumulates magnitude tooLarge n →
      match digits? base digits with
      | none => literalLoop base digits magnitude tooLarge = none
      | some ds => ∃ m t, literalLoop base digits magnitude tooLarge = some (m, t) ∧
          Accumulates m t (ds.foldl (fun n d => n * base + d) n) := by
  induction digits with
  | nil =>
    intro magnitude tooLarge n hacc
    exact ⟨magnitude, tooLarge, rfl, hacc⟩
  | cons byte rest ih =>
    intro magnitude tooLarge n hacc
    cases hd : digitValue byte with
    | none => simp [digits?, literalLoop, hd]
    | some d =>
      by_cases hlt : d < base
      · -- the accumulator after this digit stands for `n * base + d`
        have hstep : ∃ m t, literalLoop base (byte :: rest) magnitude tooLarge
            = literalLoop base rest m t ∧ Accumulates m t (n * base + d) := by
          rcases hacc with ⟨rfl, rfl, hle⟩ | ⟨rfl, hgt⟩
          · by_cases hbig : (2 ^ 63 - d) / base < magnitude
            · refine ⟨magnitude, true, ?_, Or.inr ⟨rfl, ?_⟩⟩
              · simp only [literalLoop, hd, Nat.not_le.mpr hlt, hbig, if_false, if_true,
                  Bool.false_eq_true]
              · rw [Nat.div_lt_iff_lt_mul (by omega)] at hbig
                omega
            · refine ⟨magnitude * base + d, false, ?_, Or.inl ⟨rfl, rfl, ?_⟩⟩
              · simp only [literalLoop, hd, Nat.not_le.mpr hlt, hbig, if_false,
                  Bool.false_eq_true]
              · rw [Nat.div_lt_iff_lt_mul (by omega)] at hbig
                omega
          · refine ⟨magnitude, true, ?_, Or.inr ⟨rfl, ?_⟩⟩
            · simp [literalLoop, hd, Nat.not_le.mpr hlt]
            · calc 2 ^ 63 < n := hgt
                _ ≤ n * base := Nat.le_mul_of_pos_right n (by omega)
                _ ≤ n * base + d := Nat.le_add_right _ _
        obtain ⟨m, t, hloop, hacc'⟩ := hstep
        have := ih m t (n * base + d) hacc'
        rw [hloop]
        cases hr : digits? base rest with
        | none =>
          rw [hr] at this
          simpa [digits?, hd, hlt, hr] using this
        | some ds =>
          rw [hr] at this
          simpa [digits?, hd, hlt, hr] using this
      · simp [digits?, literalLoop, hd, hlt, Nat.not_lt.mp hlt]

theorem literalBase_bounds {text digits : Bytes} {base : ℕ}
    (h : literalBase text = some (base, digits)) : 2 ≤ base ∧ base ≤ 16 := by
  unfold literalBase at h
  split at h
  · cases h
  · split at h
    · split at h
      · split at h
        · split at h
          · cases h
          · cases h; omega
        · cases h; omega
      · cases h; omega
    · cases h; omega

/-- **`literal` is `constant`, classified against `2^63`.** -/
theorem literal_eq (text : Bytes) : literal text = (constant text).map classify := by
  cases hb : literalBase text with
  | none => simp [literal, constant, hb]
  | some bd =>
    obtain ⟨base, digits⟩ := bd
    have hspec := literalLoop_spec (literalBase_bounds hb) digits 0 false 0 (Or.inl ⟨rfl, rfl, by omega⟩)
    cases hd : digits? base digits with
    | none =>
      rw [hd] at hspec
      simp [literal, constant, hb, hd, hspec]
    | some ds =>
      rw [hd] at hspec
      obtain ⟨m, t, hloop, hacc⟩ := hspec
      simp only [literal, constant, hb, hd, hloop, Option.bind_eq_bind, Option.bind_some,
        Option.map_some, Option.some.injEq]
      generalize ds.foldl (fun n d => n * base + d) 0 = n at hacc
      rcases hacc with ⟨rfl, rfl, hle⟩ | ⟨rfl, hgt⟩
      · by_cases hlt : m < 2 ^ 63
        · have hle' : ¬ 2 ^ 63 - 1 < m := by omega
          simp only [classify, hlt, hle', if_true, if_false, Bool.false_eq_true]
        · have : m = 2 ^ 63 := by omega
          simp [classify, this]
      · have h1 : ¬ n < 2 ^ 63 := by omega
        have h2 : n ≠ 2 ^ 63 := by omega
        simp only [classify, h1, h2, if_false, if_true, OfNat.ofNat_ne_zero]

end Arithmetic
end CShell
