import CShell.Lexer.Lookahead

/-!
# What a word captures

Fix the physical input `J`.  A word that starts outside every alias captures
exactly the input bytes from its start on, however many aliases are substituted
in its command substitutions and however often an arithmetic candidate is
replayed: an ancestor skips the bytes of an alias that a deeper lexer
substituted, and a checkpoint holds the lengths of all captures at one place of
the input.

## Main definitions

* `posAt origin J n` — the position behind `n` bytes of the input.
* `OnTape origin J fed n s` — the tape `s` has handed out `n` of the bytes `fed`.
* `Word` — what is known of one lexer, `Chain` — of a lexer and its ancestors.

## References

`src/lexer.c` (`consume`, `checkpoint_arithmetic`, `csh_lexer_replay_arithmetic`).
-/

namespace CShell
namespace Lexical

open Machine List

/-- The position behind the first `n` bytes of an input. -/
def posAt (origin : Position) (J : Bytes) (n : ℕ) : Position :=
  (J.take n).foldl Position.advance origin

theorem posAt_succ {origin : Position} {J : Bytes} {n : ℕ} {byte : UInt8}
    (h : J[n]? = some byte) : posAt origin J (n + 1) = (posAt origin J n).advance byte := by
  simp [posAt, take_add_one, h]

theorem extract_self (J : Bytes) (n : ℕ) : J.extract n n = [] := by
  simp [extract_eq_take_drop]

theorem extract_succ {J : Bytes} {a n : ℕ} {byte : UInt8} (ha : a ≤ n) (h : J[n]? = some byte) :
    J.extract a (n + 1) = J.extract a n ++ [byte] := by
  rw [extract_eq_take_drop, extract_eq_take_drop, Nat.sub_add_comm ha, take_add_one,
    getElem?_drop, Nat.add_sub_cancel' ha, h]
  rfl

theorem take_extract {J : Bytes} {a b n : ℕ} (ha : a ≤ n) (hb : n ≤ b) :
    (J.extract a b).take (n - a) = J.extract a n := by
  rw [extract_eq_take_drop, extract_eq_take_drop, take_take]
  congr 1
  omega

/-! ### The tape -/

/-- Where the physical input goes on behind the aliases. -/
def Source.physicalCursor (s : Source) : ℕ :=
  (s.aliases.getLast?.map AliasSource.stop).getD s.cursor

/-- The physical position behind the aliases. -/
def Source.physicalPosition (s : Source) : Position :=
  (s.aliases.getLast?.map AliasSource.resume).getD s.position

variable (origin : Position) (J : Bytes)

/-- Of the input `J` the bytes `fed` have been fed, and `n` of them consumed. -/
structure OnTape (fed : Bytes) (n : ℕ) (s : Source) : Prop where
  input : fed <+: J
  le : n ≤ fed.length
  tape : s.data.drop s.physicalCursor = fed.drop n
  position : s.physicalPosition = posAt origin J n
  stops : (s.cursor :: s.aliases.map AliasSource.stop).Pairwise (· < ·)
  within : ∀ a ∈ s.aliases, a.stop ≤ s.data.length
  cursor : s.cursor ≤ s.data.length

variable {origin J}

namespace OnTape

variable {fed : Bytes} {n : ℕ} {s : Source}

/-- No alias ends before the cursor. -/
theorem leaveAliases_of_lt {as : List AliasSource} {s : Source}
    (h : ∀ a ∈ as.head?, s.cursor < a.stop) : Source.leaveAliases as s = { s with aliases := as } := by
  cases as with
  | nil => rfl
  | cons a as =>
    have := h a rfl
    simp only [Source.leaveAliases]
    rw [if_neg (by omega)]

section

variable (h : OnTape origin J fed n s)
include h

/-- The tape does not depend on the lookahead, the failure and the eligibility. -/
theorem congr {s' : Source} (hd : s'.data = s.data)
    (hc : s'.cursor = s.cursor) (ha : s'.aliases = s.aliases) (hp : s'.position = s.position) :
    OnTape origin J fed n s' := by
  have hcursor : s'.physicalCursor = s.physicalCursor := by
    unfold Source.physicalCursor
    rw [ha, hc]
  have hposition : s'.physicalPosition = s.physicalPosition := by
    unfold Source.physicalPosition
    rw [ha, hp]
  refine ⟨h.input, h.le, ?_, ?_, ?_, ?_, ?_⟩
  · rw [hd, hcursor, h.tape]
  · rw [hposition, h.position]
  · rw [hc, ha]
    exact h.stops
  · rw [ha, hd]
    exact h.within
  · rw [hc, hd]
    exact h.cursor

/-- Outside aliases the byte at the cursor is the next byte of the input. -/
theorem next (ha : s.aliases = []) {byte : UInt8} {rest : Bytes}
    (hb : s.unread = byte :: rest) : n < fed.length ∧ J[n]? = some byte := by
  have htape : fed.drop n = byte :: rest := by
    rw [← h.tape, ← hb]
    simp [Source.physicalCursor, Source.unread, ha]
  have hn : fed[n]? = some byte := by
    rw [← head?_drop, htape]
    rfl
  obtain ⟨hlt, -⟩ := List.getElem?_eq_some_iff.mp hn
  refine ⟨hlt, ?_⟩
  obtain ⟨rest, rfl⟩ := h.input
  rw [getElem?_append_left hlt, hn]

/-- A physical byte is consumed. -/
theorem advance_physical (ha : s.aliases = []) {byte : UInt8}
    {rest : Bytes} (hb : s.unread = byte :: rest) :
    OnTape origin J fed (n + 1) (s.advance byte) := by
  obtain ⟨hlt, hn⟩ := h.next ha hb
  have hadvance : s.advance byte = { s with
      sequence := s.sequence + 1, position := s.position.advance byte, cursor := s.cursor + 1 } := by
    unfold Source.advance
    rw [ha]
    simp [Source.leaveAliases]
  rw [hadvance]
  have htape := h.tape
  have hposition := h.position
  simp only [Source.physicalCursor, Source.physicalPosition, ha, getLast?_nil,
    Option.map_none, Option.getD_none] at htape hposition
  refine ⟨h.input, hlt, ?_, ?_, ?_, ?_, ?_⟩
  · simp only [Source.physicalCursor, ha, getLast?_nil, Option.map_none, Option.getD_none]
    rw [← drop_drop, htape, drop_drop]
  · simp only [Source.physicalPosition, ha, getLast?_nil, Option.map_none, Option.getD_none]
    rw [posAt_succ hn, hposition]
  · simp [ha]
  · simp [ha]
  · have hlen := congrArg length hb
    rw [Source.unread, length_drop, length_cons] at hlen
    show s.cursor + 1 ≤ s.data.length
    omega

/-- A byte of an alias is consumed; the alias may end with it. -/
theorem advance_alias {top : AliasSource} {rest : List AliasSource}
    (ha : s.aliases = top :: rest) (byte : UInt8) :
    OnTape origin J fed n (s.advance byte) ∧ (s.advance byte).aliases ⊆ s.aliases := by
  have hstops := h.stops
  rw [ha, map_cons, pairwise_cons, pairwise_cons] at hstops
  obtain ⟨hlow, hnext, hrest⟩ := hstops
  have hcursor : s.cursor + 1 ≤ s.data.length := by
    have := hlow top.stop mem_cons_self
    have := h.within top (by rw [ha]; exact mem_cons_self)
    omega
  unfold Source.advance
  rw [ha]
  simp only [Source.leaveAliases]
  split
  · rename_i hstop
    -- The alias ends here; the one below it, or the physical input, goes on.
    rw [leaveAliases_of_lt]
    swap
    · intro below hbelow
      have hmem : below.stop ∈ rest.map AliasSource.stop :=
        mem_map_of_mem (mem_of_mem_head? hbelow)
      exact hstop ▸ hnext _ hmem
    refine ⟨⟨h.input, h.le, ?_, ?_, ?_, ?_, hcursor⟩, subset_cons_self _ _⟩
    · rw [← h.tape]
      cases hrest' : rest.getLast? with
      | none =>
        have hnil : rest = [] := getLast?_eq_none_iff.mp hrest'
        subst hnil
        simp [Source.physicalCursor, ha, hstop]
      | some bottom =>
        simp [Source.physicalCursor, ha, getLast?_cons, hrest']
    · rw [← h.position]
      cases hrest' : rest.getLast? with
      | none =>
        have hnil : rest = [] := getLast?_eq_none_iff.mp hrest'
        subst hnil
        simp [Source.physicalPosition, ha]
      | some bottom =>
        simp [Source.physicalPosition, ha, getLast?_cons, hrest']
    · rw [pairwise_cons]
      refine ⟨?_, hrest⟩
      intro stop hmem
      have := hnext stop hmem
      have : s.cursor + 1 = top.stop := hstop
      show s.cursor + 1 < stop
      omega
    · intro a hmem
      exact h.within a (by rw [ha]; exact mem_cons_of_mem _ hmem)
  · rename_i hstop
    refine ⟨⟨h.input, h.le, ?_, ?_, ?_, ?_, hcursor⟩, by simp⟩
    · rw [← h.tape]
      simp [Source.physicalCursor, ha, getLast?_cons]
    · rw [← h.position]
      simp [Source.physicalPosition, ha, getLast?_cons]
    · rw [map_cons, pairwise_cons, pairwise_cons]
      refine ⟨?_, hnext, hrest⟩
      intro stop hmem
      have htop : s.cursor + 1 < top.stop := by
        have := hlow top.stop (by simp)
        have : ¬s.cursor + 1 = top.stop := hstop
        omega
      rcases mem_cons.mp hmem with rfl | hmem
      · exact htop
      · have := hnext stop hmem
        show s.cursor + 1 < stop
        omega
    · intro a hmem
      exact h.within a (by rw [ha]; exact hmem)

end

end OnTape

/-! ### The lexers -/

variable (origin J)

/-- Where the pending word of a lexer starts, if it started outside every alias. -/
def startOf (l : Lexer) : Option ℕ :=
  if l.active = true ∧ l.aliasName = none then some (l.start.offset - origin.offset) else none

/-- A fragment of a word that starts at `a` in the input, not beyond `limit`. -/
structure FragmentAt (a limit : ℕ) (f : Fragment) : Prop where
  ordered : f.begin ≤ f.stop
  inside : a + f.stop ≤ limit
  start : f.start = posAt origin J (a + f.begin)
  finish : f.finish = posAt origin J (a + f.stop)

/-- A word that starts in the input: it captured the input from `a` to `n`, and its
fragments lie before `limit`. -/
structure Held (a n limit : ℕ) (l : Lexer) : Prop where
  start : l.start = posAt origin J a
  start_le : a ≤ limit
  limit_le : limit ≤ n
  raw : l.raw = J.extract a n
  spelling : l.spellingPosition = posAt origin J n
  fragments : ∀ f ∈ l.fragments, FragmentAt origin J a limit f

/-- No alias on the stack was substituted by one of the words that start in the
input: such a word is only suspended while aliases are read. -/
def Shielded (aliases : List AliasSource) : List (Option ℕ) → Prop
  | [] => True
  | start :: rest =>
    (start.isSome = true → ∀ a ∈ aliases, rest.length < a.ownerDepth) ∧ Shielded aliases rest

/-- The captures of a checkpoint made `n` bytes into the input. -/
def Captured (n : ℕ) : List (Option ℕ) → List (ℕ × Position) → Prop
  | [], [] => True
  | start :: starts, c :: captures =>
    (∀ a, start = some a → a ≤ n ∧ c = (n - a, posAt origin J n)) ∧ Captured n starts captures
  | _, _ => False

/-- A checkpoint made `n` bytes into the input by the first of the lexers whose words
start at `starts`. -/
structure Saved (fed : Bytes) (starts : List (Option ℕ)) (fragments : List Fragment)
    (c : Checkpoint) (n : ℕ) : Prop where
  tape : OnTape origin J fed n c.source
  failure : c.source.failure = none
  owners : ∀ a ∈ c.source.aliases, a.ownerDepth < starts.length
  shielded : Shielded c.source.aliases starts
  captures : Captured origin J n starts c.captures
  fragments : ∀ a, starts.head? = some (some a) →
    ∀ f ∈ fragments.take c.fragmentCount, FragmentAt origin J a n f
  look : c.source.look = none
  opening : Ahead c.source.unread [byteOf '$', byteOf '('] c.commandLength

/-- The checkpoints of a lexer belong to its arithmetic frames, innermost first, and
were made between `low` and `limit`. -/
inductive Candidates (fed : Bytes) (starts : List (Option ℕ)) (fragments : List Fragment)
    (low : ℕ) : List Frame → List Checkpoint → ℕ → ℕ → Prop
  | nil (index limit : ℕ) : Candidates fed starts fragments low [] [] index limit
  | frame {f : Frame} {frames : List Frame} {cs : List Checkpoint} {index limit : ℕ}
      (hk : f.kind ≠ .arithmetic) (hi : f.fragment < index)
      (h : Candidates fed starts fragments low frames cs f.fragment limit) :
      Candidates fed starts fragments low (f :: frames) cs index limit
  | candidate {f : Frame} {frames : List Frame} {c : Checkpoint} {cs : List Checkpoint}
      {index limit n : ℕ} (hk : f.kind = .arithmetic) (hi : f.fragment < index)
      (hf : c.fragmentCount = f.fragment) (hc : c.frameCount = frames.length)
      (hs : Saved origin J fed starts fragments c n) (hlow : low ≤ n) (hn : n ≤ limit)
      (h : Candidates fed starts fragments low frames cs f.fragment n) :
      Candidates fed starts fragments low (f :: frames) (c :: cs) index limit

/-- What is known of a lexer that was created `low` bytes into the input; `starts`
are the words of its ancestors. -/
structure Word (fed : Bytes) (n low limit : ℕ) (starts : List (Option ℕ)) (l : Lexer) : Prop where
  held : ∀ a, startOf origin l = some a → low ≤ a ∧ Held origin J a n limit l
  candidates : Candidates origin J fed (startOf origin l :: starts) l.fragments low l.frames
    l.arithmetic l.fragments.length limit
  operator : l.kind ≠ .word → l.frames = []
  command : l.command = true → l.inFrame .command = true
  idle : l.active = false →
    l.raw = [] ∧ l.fragments = [] ∧ l.frames = [] ∧ l.arithmetic = [] ∧ l.aliasName = none
  comment : l.comment = true → l.active = false

/-- A lexer and its ancestors, each created before the checkpoints of the one below
it. -/
def Chain (fed : Bytes) (n : ℕ) : ℕ → List Lexer → Prop
  | _, [] => True
  | limit, l :: ls =>
    ∃ low ≤ limit, Word origin J fed n low limit (ls.map (startOf origin)) l ∧ Chain fed n low ls

/-- A machine that is `n` bytes into the input. -/
structure Traced (fed : Bytes) (n : ℕ) (m : Machine) : Prop where
  tape : OnTape origin J fed n m.source
  owners : ∀ a ∈ m.source.aliases, a.ownerDepth ≤ m.depth
  shielded : Shielded m.source.aliases (m.chain.map (startOf origin))
  chain : Chain origin J fed n n m.chain
  look : LookOk m.source

/-- A machine somewhere in the input. -/
def Tracks (fed : Bytes) (m : Machine) : Prop := ∃ n, Traced origin J fed n m

/-- A machine that gave up: the failure sticks and nothing can be replayed. -/
def Dead (m : Machine) : Prop :=
  m.source.failure.isSome = true ∧ ∀ l ∈ m.chain, l.active = false ∧ l.arithmetic = []

variable {origin J}

/-! ### Monotonicity -/

theorem FragmentAt.mono {a limit limit' : ℕ} {f : Fragment}
    (h : FragmentAt origin J a limit f) (hle : limit ≤ limit') :
    FragmentAt origin J a limit' f :=
  ⟨h.ordered, h.inside.trans hle, h.start, h.finish⟩

theorem Held.mono {a n limit limit' : ℕ} {l : Lexer} (h : Held origin J a n limit l)
    (hle : limit ≤ limit') (hn : limit' ≤ n) : Held origin J a n limit' l :=
  ⟨h.start, h.start_le.trans hle, hn, h.raw, h.spelling, fun f hf => (h.fragments f hf).mono hle⟩

theorem Held.congr {a n limit : ℕ} {l l' : Lexer} (h : Held origin J a n limit l)
    (hs : l'.start = l.start) (hr : l'.raw = l.raw) (hp : l'.spellingPosition = l.spellingPosition)
    (hf : l'.fragments = l.fragments) : Held origin J a n limit l' :=
  ⟨hs.trans h.start, h.start_le, h.limit_le, hr.trans h.raw, hp.trans h.spelling,
    by rw [hf]; exact h.fragments⟩

section Candidates

variable {fed : Bytes} {starts : List (Option ℕ)} {fragments fragments' : List Fragment} {low : ℕ}
  {frames : List Frame} {cs : List Checkpoint} {index index' limit limit' : ℕ}

theorem Candidates.mono (h : Candidates origin J fed starts fragments low frames cs index limit)
    (hi : index ≤ index') (hl : limit ≤ limit') :
    Candidates origin J fed starts fragments low frames cs index' limit' := by
  induction h generalizing index' with
  | nil => exact .nil _ _
  | frame hk hf _ ih => exact .frame hk (by omega) (ih (Nat.le_refl _) hl)
  | candidate hk hf hcount hc hs hlow hn h =>
    exact .candidate hk (by omega) hcount hc hs hlow (by omega) h

/-- Only the fragments before a candidate matter to its checkpoint. -/
theorem Candidates.congr (h : Candidates origin J fed starts fragments low frames cs index limit)
    (ht : ∀ k < index, fragments'.take k = fragments.take k) :
    Candidates origin J fed starts fragments' low frames cs index limit := by
  induction h with
  | nil => exact .nil _ _
  | frame hk hf _ ih => exact .frame hk hf (ih fun k hlt => ht k (by omega))
  | @candidate f frames c cs index limit n hk hf hcount hc hs hlow hn _ ih =>
    refine .candidate hk hf hcount hc ?_ hlow hn (ih fun k hlt => ht k (by omega))
    refine ⟨hs.tape, hs.failure, hs.owners, hs.shielded, hs.captures, ?_, hs.look, hs.opening⟩
    rw [ht _ (by omega)]
    exact hs.fragments

/-- The innermost frame may change, but for its kind and its fragment. -/
theorem Candidates.onFrame {f f' : Frame}
    (h : Candidates origin J fed starts fragments low (f :: frames) cs index limit)
    (hk : f'.kind = f.kind) (hf : f'.fragment = f.fragment) :
    Candidates origin J fed starts fragments low (f' :: frames) cs index limit := by
  cases h with
  | frame hkind hi h => exact .frame (by rwa [hk]) (by rwa [hf]) (by rwa [hf])
  | candidate hkind hi hcount hc hs hlow hn h =>
    exact .candidate (by rwa [hk]) (by rwa [hf]) (by rwa [hf]) hc hs hlow hn (by rwa [hf])

/-- The innermost frame is not a candidate. -/
theorem Candidates.tail {f : Frame}
    (h : Candidates origin J fed starts fragments low (f :: frames) cs index limit)
    (hk : f.kind ≠ .arithmetic) :
    f.fragment < index ∧ Candidates origin J fed starts fragments low frames cs f.fragment limit := by
  cases h with
  | frame _ hi h => exact ⟨hi, h⟩
  | candidate hkind => exact absurd hkind hk

/-- The innermost frame is a candidate. -/
theorem Candidates.checkpoint {f : Frame}
    (h : Candidates origin J fed starts fragments low (f :: frames) cs index limit)
    (hk : f.kind = .arithmetic) :
    ∃ c cs' n, cs = c :: cs' ∧ f.fragment < index ∧ c.fragmentCount = f.fragment ∧
      c.frameCount = frames.length ∧ Saved origin J fed starts fragments c n ∧ low ≤ n ∧ n ≤ limit ∧
      Candidates origin J fed starts fragments low frames cs' f.fragment n := by
  cases h with
  | frame hkind => exact absurd hk hkind
  | candidate _ hi hcount hc hs hlow hn h => exact ⟨_, _, _, rfl, hi, hcount, hc, hs, hlow, hn, h⟩

end Candidates

/-! ### Consuming a byte -/

section Capture

variable {fed : Bytes} {n low limit : ℕ} {starts : List (Option ℕ)} {l : Lexer} {byte : UInt8}

@[simp] theorem startOf_capture : startOf origin (l.capture byte) = startOf origin l := rfl

section

variable (h : Word origin J fed n low limit starts l)
include h

/-- The limit of a lexer moves up with the machine. -/
theorem Word.mono {limit' : ℕ} (hl : limit ≤ limit')
    (hn : limit' ≤ n) : Word origin J fed n low limit' starts l where
  held a ha := ⟨(h.held a ha).1, (h.held a ha).2.mono hl hn⟩
  candidates := h.candidates.mono (Nat.le_refl _) hl
  operator := h.operator
  command := h.command
  idle := h.idle
  comment := h.comment

/-- The part of a lexer that a word is made of; flags and kind have their own
conditions. -/
theorem Word.congr {l' : Lexer} (hw : (l'.active, l'.aliasName, l'.start, l'.raw, l'.spellingPosition, l'.fragments, l'.frames,
      l'.arithmetic) = (l.active, l.aliasName, l.start, l.raw, l.spellingPosition, l.fragments,
      l.frames, l.arithmetic)) (hk : l'.kind ≠ .word → l'.frames = [])
    (hc : l'.command = true → l'.inFrame .command = true)
    (hq : l'.comment = true → l'.active = false) : Word origin J fed n low limit starts l' := by
  simp only [Prod.mk.injEq] at hw
  obtain ⟨hactive, halias, hstart, hraw, hspelling, hfragments, hframes, harithmetic⟩ := hw
  have hstartOf : startOf origin l' = startOf origin l := by
    unfold startOf
    rw [hactive, halias, hstart]
  refine ⟨?_, ?_, hk, hc, ?_, hq⟩
  · rw [hstartOf]
    intro a ha
    exact ⟨(h.held a ha).1, (h.held a ha).2.congr hstart hraw hspelling hfragments⟩
  · rw [hstartOf, hfragments, hframes, harithmetic]
    exact h.candidates
  · rw [hactive, hraw, hfragments, hframes, harithmetic, halias]
    exact h.idle

/-- A pending word captures the next byte of the input. -/
theorem Word.capture_physical (hb : J[n]? = some byte) (hi : l.active = true) :
    Word origin J fed (n + 1) low limit starts (l.capture byte) where
  held a ha := by
    obtain ⟨hlow, hheld⟩ := h.held a ha
    have hle : a ≤ n := hheld.start_le.trans hheld.limit_le
    refine ⟨hlow, hheld.start, hheld.start_le, hheld.limit_le.trans (Nat.le_succ n), ?_, ?_,
      hheld.fragments⟩
    · show l.raw ++ [byte] = _
      rw [hheld.raw, extract_succ hle hb]
    · show l.spellingPosition.advance byte = _
      rw [hheld.spelling, posAt_succ hb]
  candidates := h.candidates
  operator := h.operator
  command := h.command
  idle hi' := by
    have : l.active = false := hi'
    rw [hi] at this
    cases this
  comment := h.comment

end

/-- A lexer without a pending word captures nothing. -/
theorem Word.skip (h : Word origin J fed n low limit starts l) (hi : l.active = false) {n' : ℕ} :
    Word origin J fed n' low limit starts l where
  held a ha := by
    simp [startOf, hi] at ha
  candidates := h.candidates
  operator := h.operator
  command := h.command
  idle := h.idle
  comment := h.comment

/-- A word that does not start in the input may capture any byte. -/
theorem Word.capture_other (h : Word origin J fed n low limit starts l)
    (hs : startOf origin l = none) (hi : l.active = true) {n' : ℕ} :
    Word origin J fed n' low limit starts (l.capture byte) where
  held a ha := by
    rw [startOf_capture, hs] at ha
    cases ha
  candidates := h.candidates
  operator := h.operator
  command := h.command
  idle hi' := by
    have : l.active = false := hi'
    rw [hi] at this
    cases this
  comment := h.comment

variable {ls : List Lexer} {s : Source}

@[simp] theorem map_startOf_captureParents :
    (captureParents s byte ls).map (startOf origin) = ls.map (startOf origin) := by
  induction ls with
  | nil => rfl
  | cons l ls ih =>
    rw [captureParents, map_cons, map_cons, ih]
    congr 1
    split <;> rfl

@[simp] theorem length_captureParents : (captureParents s byte ls).length = ls.length := by
  induction ls with
  | nil => rfl
  | cons l ls ih => rw [captureParents, length_cons, length_cons, ih]

theorem Chain.capture_physical (h : Chain origin J fed n limit ls) (ha : s.aliases = [])
    (hb : J[n]? = some byte) : Chain origin J fed (n + 1) limit (captureParents s byte ls) := by
  induction ls generalizing limit with
  | nil => trivial
  | cons l ls ih =>
    obtain ⟨low, hlow, hword, hrest⟩ := h
    refine ⟨low, hlow, ?_, ih hrest⟩
    rw [map_startOf_captureParents]
    have howned : s.ownedBelow ls.length = false := by simp [Source.ownedBelow, ha]
    rw [howned, Bool.not_false, Bool.and_true]
    split
    · rename_i hi
      exact hword.capture_physical hb hi
    · rename_i hi
      exact hword.skip (by simpa using hi)

/-- The words that start in the input do not capture the bytes of an alias. -/
theorem Chain.capture_alias (h : Chain origin J fed n limit ls) {top : AliasSource}
    {rest : List AliasSource} (ha : s.aliases = top :: rest)
    (hs : Shielded s.aliases (ls.map (startOf origin))) :
    Chain origin J fed n limit (captureParents s byte ls) := by
  induction ls generalizing limit with
  | nil => trivial
  | cons l ls ih =>
    obtain ⟨low, hlow, hword, hrest⟩ := h
    obtain ⟨hown, hs⟩ := hs
    refine ⟨low, hlow, ?_, ih hrest hs⟩
    rw [map_startOf_captureParents]
    split
    · rename_i hcap
      rw [Bool.and_eq_true] at hcap
      obtain ⟨hi, hcap⟩ := hcap
      refine hword.capture_other ?_ hi
      -- The top alias belongs to this lexer or to an ancestor.
      rw [Option.eq_none_iff_forall_ne_some]
      intro a hstart
      have hlt := hown (by rw [hstart]; rfl) top (by rw [ha]; exact mem_cons_self)
      rw [length_map] at hlt
      simp [Source.ownedBelow, ha, hlt] at hcap
    · exact hword

end Capture

section Machine

variable {fed : Bytes} {n : ℕ} {m : Machine} {byte : UInt8}

theorem Shielded.mono {aliases aliases' : List AliasSource} {starts : List (Option ℕ)}
    (h : Shielded aliases starts) (hs : aliases' ⊆ aliases) : Shielded aliases' starts := by
  induction starts with
  | nil => trivial
  | cons start starts ih => exact ⟨fun hsome a ha => h.1 hsome a (hs ha), ih h.2⟩

theorem shielded_nil (starts : List (Option ℕ)) : Shielded [] starts := by
  induction starts with
  | nil => trivial
  | cons start starts ih =>
    refine ⟨?_, ih⟩
    intro _ a ha
    cases ha

theorem startOf_advance :
    startOf origin (m.advance byte).lexer = startOf origin m.lexer := by
  unfold Machine.advance
  split <;> rfl

theorem map_startOf_advance :
    (m.advance byte).chain.map (startOf origin) = m.chain.map (startOf origin) := by
  unfold chain
  rw [map_cons, map_cons, startOf_advance]
  simp only [Machine.advance, map_startOf_captureParents]

/-- A word that starts in the input is read outside every alias. -/
theorem Traced.aliases_eq_nil (h : Traced origin J fed n m) {a : ℕ}
    (ha : startOf origin m.lexer = some a) : m.source.aliases = [] := by
  rw [eq_nil_iff_forall_not_mem]
  intro x hx
  have hlt := h.shielded.1 (by rw [ha]; rfl) x hx
  have hle := h.owners x hx
  simp only [length_map] at hlt
  unfold depth at hle
  omega

@[simp] theorem leaveAliases_look (as : List AliasSource) (s : Source) :
    (Source.leaveAliases as s).look = s.look := by
  induction as generalizing s with
  | nil => rfl
  | cons a as ih =>
    rw [Source.leaveAliases]
    split
    · rw [ih]
    · rfl

/-- No lookahead is left behind a byte. -/
theorem lookOk_advance (hl : m.source.look = none) : LookOk (m.advance byte).source :=
  lookOk_none ((leaveAliases_look _ _).trans hl)

theorem Traced.advance_physical (h : Traced origin J fed n m) (hl : m.source.look = none)
    (ha : m.source.aliases = []) {rest : Bytes} (hb : m.source.unread = byte :: rest) :
    Traced origin J fed (n + 1) (m.advance byte) := by
  obtain ⟨-, hn⟩ := h.tape.next ha hb
  have haliases : (m.advance byte).source.aliases = [] := by
    show (m.source.advance byte).aliases = []
    simp [Source.advance, ha, Source.leaveAliases]
  refine ⟨h.tape.advance_physical ha hb, ?_, ?_, ?_, lookOk_advance hl⟩
  · rw [haliases]
    intro a hmem
    cases hmem
  · rw [haliases]
    exact shielded_nil _
  · obtain ⟨low, hlow, hword, hrest⟩ := h.chain
    refine ⟨low, hlow.trans (Nat.le_succ n), ?_, hrest.capture_physical ha hn⟩
    rw [show (m.advance byte).parents = captureParents m.source byte m.parents from rfl,
      map_startOf_captureParents]
    show Word origin J fed (n + 1) low (n + 1) _
      (if m.lexer.active then m.lexer.capture byte else m.lexer)
    split
    · rename_i hi
      exact (hword.capture_physical hn hi).mono (Nat.le_succ n) (Nat.le_refl _)
    · rename_i hi
      exact (hword.skip (by simpa using hi)).mono (Nat.le_succ n) (Nat.le_refl _)

theorem Traced.advance_alias (h : Traced origin J fed n m) (hl : m.source.look = none)
    {top : AliasSource} {rest : List AliasSource} (ha : m.source.aliases = top :: rest) :
    Traced origin J fed n (m.advance byte) := by
  obtain ⟨htape, hsub⟩ := h.tape.advance_alias ha byte
  refine ⟨htape, ?_, ?_, ?_, lookOk_advance hl⟩
  · intro a hmem
    have := h.owners a (hsub hmem)
    simpa [depth, Machine.advance] using this
  · rw [map_startOf_advance]
    exact h.shielded.mono hsub
  · obtain ⟨low, hlow, hword, hrest⟩ := h.chain
    refine ⟨low, hlow, ?_, hrest.capture_alias ha h.shielded.2⟩
    rw [show (m.advance byte).parents = captureParents m.source byte m.parents from rfl,
      map_startOf_captureParents]
    have hnone : startOf origin m.lexer = none := by
      rw [Option.eq_none_iff_forall_ne_some]
      intro a hstart
      rw [h.aliases_eq_nil hstart] at ha
      cases ha
    show Word origin J fed n low n _ (if m.lexer.active then m.lexer.capture byte else m.lexer)
    split
    · rename_i hi
      exact hword.capture_other hnone hi
    · exact hword

/-- Consuming a byte keeps a machine in the input. -/
theorem Tracks.advance (h : Tracks origin J fed m) (hl : m.source.look = none) {rest : Bytes}
    (hb : m.source.unread = byte :: rest) : Tracks origin J fed (m.advance byte) := by
  obtain ⟨n, h⟩ := h
  cases ha : m.source.aliases with
  | nil => exact ⟨n + 1, h.advance_physical hl ha hb⟩
  | cons top aliases => exact ⟨n, h.advance_alias hl ha⟩

/-- What a machine in the input knows is not about the failure or the eligibility of
its source. -/
theorem Traced.onSource {s : Source} (h : Traced origin J fed n m) (hd : s.data = m.source.data)
    (hc : s.cursor = m.source.cursor) (ha : s.aliases = m.source.aliases)
    (hp : s.position = m.source.position) (hl : LookOk s) :
    Traced origin J fed n { m with source := s } where
  tape := h.tape.congr hd hc ha hp
  owners := by
    rw [ha]
    exact h.owners
  shielded := by
    rw [ha]
    exact h.shielded
  chain := h.chain
  look := hl

/-- A change of the deepest lexer that leaves its word where it is. -/
theorem Traced.onLexer {f : Lexer → Lexer} (h : Traced origin J fed n m)
    (hs : startOf origin (f m.lexer) = startOf origin m.lexer)
    (hw : ∀ {low starts}, low ≤ n → Word origin J fed n low n starts m.lexer →
      Word origin J fed n low n starts (f m.lexer)) :
    Traced origin J fed n (m.onLexer f) where
  tape := h.tape
  owners := h.owners
  shielded := by
    have hshield := h.shielded
    rw [Machine.chain, map_cons, ← hs] at hshield
    exact hshield
  chain := by
    obtain ⟨low, hlow, hword, hrest⟩ := h.chain
    exact ⟨low, hlow, hw hlow hword, hrest⟩
  look := h.look

end Machine

/-! ### Failures and runs of bytes -/

/-- A result that keeps a property: a failure either keeps it too or gives up. -/
def Keeps (P : Machine → Prop) : Except Machine Machine → Prop
  | .ok m => P m
  | .error m => P m ∨ Dead m

section Keeps

variable {P : Machine → Prop} {m : Machine}

theorem dead_release (m : Machine) (h : m.source.failure.isSome = true) : Dead m.release := by
  refine ⟨h, ?_⟩
  intro l hl
  rcases mem_cons.mp hl with rfl | hl
  · exact ⟨rfl, rfl⟩
  · obtain ⟨l', -, rfl⟩ := mem_map.mp hl
    exact ⟨rfl, rfl⟩

/-- A failure is recorded, or everything is released. -/
theorem failAt_cases (m : Machine) (l : Lexer) (message : Bytes) (number : ℕ)
    (position : Position) :
    (∃ failure, m.failAt l message number position =
      { m with source := { m.source with failure := some failure } }) ∨
      Dead (m.failAt l message number position) := by
  unfold failAt
  split
  · rename_i failure hf
    exact .inl ⟨failure, by rw [← hf]⟩
  · generalize (⟨message, number, if number = enomem then 1 else 2,
      diagnosticPosition m.source l position⟩ : Failure) = failure
    dsimp only
    split
    · exact .inl ⟨_, rfl⟩
    · exact .inr (dead_release _ rfl)

/-- A failure that is not about the syntax gives up. -/
theorem failAt_dead {l : Lexer} {message : Bytes} {number : ℕ} {position : Position}
    (hf : m.source.failure = none) (hn : number ≠ 0) :
    Dead (m.failAt l message number position) := by
  unfold Machine.failAt
  rw [hf]
  dsimp only
  rw [if_neg fun h => hn h.1]
  exact dead_release _ rfl

/-- Consuming bytes keeps what every single byte keeps. -/
theorem consume_keeps (hlook : ∀ m, P m → P m.forgetLook)
    (hadvance : ∀ m byte rest, P m → m.source.look = none → m.source.unread = byte :: rest →
      byte ≠ 0 → P (m.advance byte))
    (hfail : ∀ m failure, P m → P { m with source := { m.source with failure := failure } })
    (count : ℕ) (h : P m) : Keeps P (m.consume count) := by
  induction count generalizing m with
  | zero => exact hlook m h
  | succ count ih =>
    have hf := hlook m h
    unfold consume
    dsimp only
    split
    · rcases failAt_cases m.forgetLook m.forgetLook.lexer (ascii "NUL byte in shell input") 0
        m.forgetLook.source.position with ⟨failure, heq⟩ | hdead
      · exact .inl (by rw [Machine.fail, heq]; exact hfail _ _ hf)
      · exact .inr hdead
    · rename_i hbyte
      exact ih (hadvance _ _ _ hf rfl (head_unread (unread_ne_nil hbyte)) hbyte)

/-- What consuming does not touch in the deepest lexer. -/
theorem consume_lexer {m' : Machine} (count : ℕ) (h : m.consume count = .ok m') :
    ∃ raw position, m'.lexer = { m.lexer with raw, spellingPosition := position } := by
  induction count generalizing m with
  | zero =>
    cases h
    exact ⟨_, _, rfl⟩
  | succ count ih =>
    unfold consume at h
    dsimp only at h
    split at h
    · cases h
    · obtain ⟨raw, position, heq⟩ := ih h
      refine ⟨raw, position, ?_⟩
      rw [heq, show (m.forgetLook.advance (m.forgetLook.source.data.getD m.forgetLook.source.cursor 0)).lexer
        = if m.lexer.active then m.lexer.capture _ else m.lexer from rfl]
      split <;> rfl

end Keeps

theorem consume_tracks {fed : Bytes} {m : Machine} (h : Tracks origin J fed m) (count : ℕ) :
    Keeps (Tracks origin J fed) (m.consume count) := by
  refine consume_keeps ?_ ?_ ?_ count h
  · rintro m ⟨n, h⟩
    exact ⟨n, h.onSource rfl rfl rfl rfl (lookOk_none rfl)⟩
  · intro m byte rest h hl hb _
    exact h.advance hl hb
  · rintro m failure ⟨n, h⟩
    exact ⟨n, h.onSource rfl rfl rfl rfl h.look⟩

end Lexical
end CShell
