import Mathlib.Data.List.Forall2

/-!
# Lists related entry by entry

`List.Forall₂ R as bs` says that two lists have one length and that `R` holds place by
place.  Mathlib has its closure under the list operations that build; this file has
what a proof about a sequence of updates asks for.

* `Aligned.refl`, `Aligned.trans` — composition.
* `Aligned.exists_left`, `Aligned.exists_right` — the partner of a member.
* `Aligned.split` — two lists cut at one place.
* `Aligned.map_eq` — what `R` keeps, the whole list keeps.
* `Aligned.modify` — one place updated.
-/

namespace Aligned

variable {α β γ : Type*} {R : α → β → Prop}

theorem refl {R : α → α → Prop} (h : ∀ a, R a a) (as : List α) : List.Forall₂ R as as :=
  List.forall₂_same.mpr fun a _ => h a

theorem trans {S : β → γ → Prop} {T : α → γ → Prop} (hrst : ∀ a b c, R a b → S b c → T a c) :
    ∀ {as : List α} {bs : List β} {cs : List γ},
      List.Forall₂ R as bs → List.Forall₂ S bs cs → List.Forall₂ T as cs
  | [], [], _, .nil, .nil => .nil
  | _ :: _, _ :: _, _, .cons hr hrs, .cons hs hss =>
    .cons (hrst _ _ _ hr hs) (trans hrst hrs hss)

theorem exists_left {as : List α} {bs : List β} (h : List.Forall₂ R as bs) {b : β}
    (hb : b ∈ bs) : ∃ a ∈ as, R a b := by
  induction h with
  | nil => cases hb
  | @cons a b' as bs hab _ ih =>
    rcases List.mem_cons.mp hb with rfl | hb
    · exact ⟨a, List.mem_cons_self, hab⟩
    · obtain ⟨a', ha', hr⟩ := ih hb
      exact ⟨a', List.mem_cons_of_mem a ha', hr⟩

theorem exists_right {as : List α} {bs : List β} (h : List.Forall₂ R as bs) {a : α}
    (ha : a ∈ as) : ∃ b ∈ bs, R a b := by
  obtain ⟨b, hb, hr⟩ := exists_left (List.Forall₂.flip (R := flip R) h) ha
  exact ⟨b, hb, hr⟩

theorem split {as bs : List α} {cs ds : List β} (hlen : cs.length = as.length)
    (h : List.Forall₂ R (as ++ bs) (cs ++ ds)) : List.Forall₂ R as cs ∧ List.Forall₂ R bs ds := by
  induction as generalizing cs with
  | nil =>
    obtain rfl : cs = [] := List.eq_nil_of_length_eq_zero hlen
    exact ⟨.nil, h⟩
  | cons a as ih =>
    cases cs with
    | nil => cases hlen
    | cons c cs =>
      rcases h with _ | ⟨hac, hrest⟩
      obtain ⟨h₁, h₂⟩ := ih (by simpa using hlen) hrest
      exact ⟨.cons hac h₁, h₂⟩

theorem map_eq {f : α → γ} {g : β → γ} (hfg : ∀ a b, R a b → g b = f a) {as : List α}
    {bs : List β} (h : List.Forall₂ R as bs) : bs.map g = as.map f := by
  induction h with
  | nil => rfl
  | cons hab _ ih => rw [List.map_cons, List.map_cons, hfg _ _ hab, ih]

theorem modify {R : α → α → Prop} (hrefl : ∀ a, R a a) {f : α → α} :
    ∀ (as : List α) (i : ℕ), (∀ h : i < as.length, R as[i] (f as[i])) →
      List.Forall₂ R as (as.modify i f)
  | [], i, _ => by cases i <;> exact .nil
  | a :: as, 0, h => .cons (h (Nat.zero_lt_succ _)) (refl hrefl as)
  | a :: as, i + 1, h => .cons (hrefl a) (modify hrefl as i fun hi => h (Nat.succ_lt_succ hi))

end Aligned
