import Mathlib.Data.List.Count
import Mathlib.Data.List.Perm.Basic
import Mathlib.Data.List.Nodup

/-!
# Conservation of tokens over places

A family `c : ι → List α` says which tokens lie at which place. `Placed c live`: every live token
lies at exactly one place, exactly once, and no other token lies anywhere. The index type may be
infinite, so nothing is summed over it; the rules below say how a step of a transition system
keeps the property:

* `Placed.move`: tokens pass between two places (a permutation of the two lists together),
* `Placed.shift`: tokens are reordered within one place,
* `Placed.born`, `Placed.gone`: a token appears at a place, or is taken from one.
-/

set_option autoImplicit false

namespace Lib

variable {ι α : Type*} [DecidableEq α]

/-- Every live token lies at exactly one place, once; no other token lies anywhere. -/
def Placed (c : ι → List α) (live : α → Prop) : Prop :=
  ∀ a, (live a → ∃ p, (c p).count a = 1 ∧ ∀ q, q ≠ p → a ∉ c q) ∧ (¬ live a → ∀ p, a ∉ c p)

namespace Placed

variable {c c' : ι → List α} {live live' : α → Prop} {a : α} {p q : ι}

theorem live_of_mem (h : Placed c live) (ha : a ∈ c p) : live a := by
  by_contra hl
  exact (h a).2 hl p ha

theorem place_unique (h : Placed c live) (hp : a ∈ c p) (hq : a ∈ c q) : p = q := by
  obtain ⟨r, -, hr⟩ := (h a).1 (h.live_of_mem hp)
  have h1 : p = r := by
    by_contra hn
    exact hr p hn hp
  have h2 : q = r := by
    by_contra hn
    exact hr q hn hq
  rw [h1, h2]

theorem count_eq_one (h : Placed c live) (ha : a ∈ c p) : (c p).count a = 1 := by
  obtain ⟨r, hr, ho⟩ := (h a).1 (h.live_of_mem ha)
  have : p = r := by
    by_contra hn
    exact ho p hn ha
  rw [this, hr]

theorem nodup (h : Placed c live) (p : ι) : (c p).Nodup := by
  rw [List.nodup_iff_count_le_one]
  intro a
  by_cases ha : a ∈ c p
  · exact Nat.le_of_eq (h.count_eq_one ha)
  · simp [List.count_eq_zero_of_not_mem ha]

theorem exists_place (h : Placed c live) (ha : live a) : ∃ p, a ∈ c p := by
  obtain ⟨p, hp, -⟩ := (h a).1 ha
  exact ⟨p, List.count_pos_iff.1 (by omega)⟩

/-- Every token keeps its counts: the property is kept. -/
theorem congr (h : Placed c live) (hc : ∀ r a, (c' r).count a = (c r).count a)
    (hl : ∀ a, live' a ↔ live a) : Placed c' live' := by
  have hmem : ∀ r a, a ∈ c' r ↔ a ∈ c r := fun r a => by
    rw [← List.count_pos_iff, hc, List.count_pos_iff]
  intro a
  obtain ⟨h1, h2⟩ := h a
  refine ⟨fun ha => ?_, fun ha r hr => h2 (fun hl' => ha ((hl a).2 hl')) r ((hmem r a).1 hr)⟩
  obtain ⟨p, hp, hq⟩ := h1 ((hl a).1 ha)
  exact ⟨p, (hc p a).trans hp, fun q hqp hm => hq q hqp ((hmem q a).1 hm)⟩

/-- Tokens are reordered within each place. -/
theorem shift (h : Placed c live) (hc : ∀ r, (c' r).Perm (c r)) (hl : ∀ a, live' a ↔ live a) :
    Placed c' live' :=
  h.congr (fun r a => (hc r).count_eq a) hl

/-- **Tokens pass between the places `p` and `q`.** -/
theorem move (h : Placed c live) (hpq : p ≠ q) (hperm : (c' p ++ c' q).Perm (c p ++ c q))
    (hrest : ∀ r, r ≠ p → r ≠ q → c' r = c r) (hl : ∀ a, live' a ↔ live a) :
    Placed c' live' := by
  have hsum : ∀ a, (c' p).count a + (c' q).count a = (c p).count a + (c q).count a := fun a => by
    have := hperm.count_eq a
    simpa [List.count_append] using this
  intro a
  obtain ⟨h1, h2⟩ := h a
  refine ⟨fun ha => ?_, fun ha r hr => ?_⟩
  · obtain ⟨r, hr, ho⟩ := h1 ((hl a).1 ha)
    have hz : ∀ r', r' ≠ r → (c r').count a = 0 := fun r' hr' =>
      List.count_eq_zero_of_not_mem (ho r' hr')
    by_cases hrpq : r = p ∨ r = q
    · -- the token is in one of the two lists, before and after
      have htot : (c' p).count a + (c' q).count a = 1 := by
        rcases hrpq with rfl | rfl
        · rw [hsum, hr, hz q (Ne.symm hpq)]
        · rw [hsum, hr, hz p hpq]
      have hother : ∀ r', r' ≠ p → r' ≠ q → a ∉ c' r' := fun r' h1' h2' => by
        rw [hrest r' h1' h2']
        refine ho r' ?_
        rcases hrpq with rfl | rfl
        · exact h1'
        · exact h2'
      by_cases hp : (c' p).count a = 1
      · refine ⟨p, hp, fun r' hr' => ?_⟩
        by_cases hq : r' = q
        · subst hq
          exact List.count_eq_zero.1 (by omega)
        · exact hother r' hr' hq
      · refine ⟨q, by omega, fun r' hr' => ?_⟩
        by_cases hp' : r' = p
        · subst hp'
          exact List.count_eq_zero.1 (by omega)
        · exact hother r' hp' hr'
    · -- the token is elsewhere and stays there
      rw [not_or] at hrpq
      have hp0 := hz p (Ne.symm hrpq.1)
      have hq0 := hz q (Ne.symm hrpq.2)
      refine ⟨r, by rw [hrest r hrpq.1 hrpq.2, hr], fun r' hr' => ?_⟩
      by_cases hp : r' = p
      · subst hp
        exact List.count_eq_zero.1 (by have := hsum a; omega)
      · by_cases hq : r' = q
        · subst hq
          exact List.count_eq_zero.1 (by have := hsum a; omega)
        · rw [hrest r' hp hq]
          exact ho r' hr'
  · have hd : ∀ r, (c r).count a = 0 := fun r =>
      List.count_eq_zero_of_not_mem (h2 (fun hl' => ha ((hl a).2 hl')) r)
    have hs := hsum a
    rw [hd p, hd q] at hs
    by_cases hp : r = p
    · subst hp
      have := List.count_pos_iff.2 hr
      omega
    · by_cases hq : r = q
      · subst hq
        have := List.count_pos_iff.2 hr
        omega
      · rw [hrest r hp hq] at hr
        exact h2 (fun hl' => ha ((hl a).2 hl')) r hr

/-- A fresh token `x` appears at `p`. -/
theorem born (h : Placed c live) {x : α} (hx : ¬ live x) (hp : (c' p).Perm (x :: c p))
    (hrest : ∀ r, r ≠ p → c' r = c r) (hl : ∀ a, live' a ↔ a = x ∨ live a) : Placed c' live' := by
  have hdead : ∀ r, x ∉ c r := (h x).2 hx
  intro a
  by_cases hax : a = x
  · subst hax
    refine ⟨fun _ => ⟨p, ?_, fun r hr => ?_⟩, fun hn => absurd ((hl a).2 (.inl rfl)) hn⟩
    · rw [hp.count_eq, List.count_cons_self, List.count_eq_zero_of_not_mem (hdead p)]
    · rw [hrest r hr]
      exact hdead r
  · have hcount : ∀ r, (c' r).count a = (c r).count a := fun r => by
      by_cases hr : r = p
      · subst hr
        rw [hp.count_eq, List.count_cons_of_ne (Ne.symm hax)]
      · rw [hrest r hr]
    have hmem : ∀ r, a ∈ c' r ↔ a ∈ c r := fun r => by
      rw [← List.count_pos_iff, hcount, List.count_pos_iff]
    have hla : live' a ↔ live a := by simp [hl, hax]
    refine ⟨fun ha => ?_, fun ha r hr => (h a).2 (fun h' => ha (hla.2 h')) r ((hmem r).1 hr)⟩
    obtain ⟨r, hr, ho⟩ := (h a).1 (hla.1 ha)
    exact ⟨r, (hcount r).trans hr, fun q hq hm => ho q hq ((hmem q).1 hm)⟩

/-- The token `x` is taken from `p` and is no longer live. -/
theorem gone (h : Placed c live) {x : α} (hp : (c p).Perm (x :: c' p))
    (hrest : ∀ r, r ≠ p → c' r = c r) (hl : ∀ a, live' a ↔ a ≠ x ∧ live a) : Placed c' live' := by
  have hxp : x ∈ c p := hp.mem_iff.2 List.mem_cons_self
  intro a
  by_cases hax : a = x
  · subst hax
    refine ⟨fun ha => absurd rfl ((hl a).1 ha).1, fun _ r hr => ?_⟩
    by_cases hrp : r = p
    · subst hrp
      have h1 := h.count_eq_one hxp
      rw [hp.count_eq, List.count_cons_self] at h1
      have := List.count_pos_iff.2 hr
      omega
    · rw [hrest r hrp] at hr
      exact hrp (h.place_unique hr hxp)
  · have hcount : ∀ r, (c' r).count a = (c r).count a := fun r => by
      by_cases hr : r = p
      · subst hr
        rw [hp.count_eq, List.count_cons_of_ne (Ne.symm hax)]
      · rw [hrest r hr]
    have hmem : ∀ r, a ∈ c' r ↔ a ∈ c r := fun r => by
      rw [← List.count_pos_iff, hcount, List.count_pos_iff]
    have hla : live' a ↔ live a := by simp [hl, hax]
    refine ⟨fun ha => ?_, fun ha r hr => (h a).2 (fun h' => ha (hla.2 h')) r ((hmem r).1 hr)⟩
    obtain ⟨r, hr, ho⟩ := (h a).1 (hla.1 ha)
    exact ⟨r, (hcount r).trans hr, fun q hq hm => ho q hq ((hmem q).1 hm)⟩

/-- Nothing is live and nothing lies anywhere. -/
theorem empty (hc : ∀ r, c r = []) (hl : ∀ a, ¬ live a) : Placed c live :=
  fun a => ⟨fun ha => absurd ha (hl a), fun _ r => by simp [hc r]⟩

end Placed

end Lib
