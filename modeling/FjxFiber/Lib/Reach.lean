import Mathlib.Logic.Function.Iterate
import Mathlib.Logic.Relation

/-!
# Reachable states of a transition system

`Reachable init step s`: `s` is reached from a state satisfying `init` by finitely many steps.
`Reachable.invariant` is the induction every safety result of the development goes through: a
property of the initial states that every step keeps. `Reachable.invariant_from` lets the step
lemma use an invariant already established, so that invariants can be proved one after another.
`CompleteRun.stops` is the rule for runs that end: every step raises a bounded measure.
-/

set_option autoImplicit false

namespace Lib

variable {σ : Type*} {init : σ → Prop} {step : σ → σ → Prop} {I J : σ → Prop}

/-- `s` is reached from an initial state by finitely many steps. -/
def Reachable (init : σ → Prop) (step : σ → σ → Prop) (s : σ) : Prop :=
  ∃ s₀, init s₀ ∧ Relation.ReflTransGen step s₀ s

theorem Reachable.start {s : σ} (h : init s) : Reachable init step s := ⟨s, h, .refl⟩

theorem Reachable.next {s s' : σ} (h : Reachable init step s) (hs : step s s') :
    Reachable init step s' := by
  obtain ⟨s₀, h0, hr⟩ := h
  exact ⟨s₀, h0, hr.tail hs⟩

theorem Reachable.run {s s' : σ} (h : Reachable init step s)
    (hs : Relation.ReflTransGen step s s') : Reachable init step s' := by
  obtain ⟨s₀, h0, hr⟩ := h
  exact ⟨s₀, h0, hr.trans hs⟩

/-- **The invariant rule**, relative to an invariant `I` already known of every reachable
state. -/
theorem Reachable.invariant_from (hI : ∀ s, Reachable init step s → I s)
    (h0 : ∀ s, init s → J s) (hs : ∀ s s', I s → J s → step s s' → J s') {s : σ}
    (h : Reachable init step s) : J s := by
  obtain ⟨s₀, hi, hr⟩ := h
  induction hr with
  | refl => exact h0 _ hi
  | tail hr' hst ih => exact hs _ _ (hI _ ⟨s₀, hi, hr'⟩) ih hst

/-- **The invariant rule.** -/
theorem Reachable.invariant (h0 : ∀ s, init s → J s) (hs : ∀ s s', J s → step s s' → J s')
    {s : σ} (h : Reachable init step s) : J s :=
  h.invariant_from (I := fun _ => True) (fun _ _ => trivial) h0 fun s s' _ => hs s s'

/-- An invariant that needs only the steps satisfying `c` holds in every run of such steps. -/
theorem Reachable.mono {step' : σ → σ → Prop} (hs : ∀ s s', step' s s' → step s s') {s : σ}
    (h : Reachable init step' s) : Reachable init step s := by
  obtain ⟨s₀, hi, hr⟩ := h
  exact ⟨s₀, hi, Relation.ReflTransGen.mono hs _ _ hr⟩

/-! ## Runs to the end -/

/-- A run that goes on as long as a step is possible. -/
structure CompleteRun (step : σ → σ → Prop) where
  state : Nat → σ
  step : ∀ n, step (state n) (state (n + 1)) ∨
    (∀ s', ¬ step (state n) s') ∧ state (n + 1) = state n

namespace CompleteRun

theorem reachable (ρ : CompleteRun step) (h : init (ρ.state 0)) (n : Nat) :
    Reachable init step (ρ.state n) := by
  induction n with
  | zero => exact .start h
  | succ n ih =>
    rcases ρ.step n with hs | ⟨-, he⟩
    · exact ih.next hs
    · rw [he]
      exact ih

/-- **A run whose steps all raise a bounded measure comes to its end.** -/
theorem stops (ρ : CompleteRun step) {μ : σ → Nat} {b : Nat}
    (hs : ∀ n s', step (ρ.state n) s' → μ (ρ.state n) < μ s')
    (hb : ∀ n, μ (ρ.state n) ≤ b) : ∃ n, ∀ s', ¬ step (ρ.state n) s' := by
  by_contra hno
  have hgo : ∀ n, step (ρ.state n) (ρ.state (n + 1)) := by
    intro n
    rcases ρ.step n with h | ⟨h, -⟩
    · exact h
    · exact absurd ⟨n, h⟩ hno
  have hge : ∀ n, n ≤ μ (ρ.state n) := by
    intro n
    induction n with
    | zero => exact Nat.zero_le _
    | succ n ih => exact Nat.lt_of_le_of_lt ih (hs n _ (hgo n))
  have h1 := hge (b + 1)
  have h2 := hb (b + 1)
  omega

/-- What is left of the run from `n` on. -/
def drop (ρ : CompleteRun step) (n : Nat) : CompleteRun step where
  state m := ρ.state (n + m)
  step m := ρ.step (n + m)

open Classical in
/-- Some step from `s`, if there is one. -/
noncomputable def next (step : σ → σ → Prop) (s : σ) : σ :=
  if h : ∃ s', step s s' then h.choose else s

/-- There is one from every state. -/
theorem exists_from (step : σ → σ → Prop) (s : σ) : ∃ ρ : CompleteRun step, ρ.state 0 = s := by
  refine ⟨⟨fun n => (next step)^[n] s, fun n => ?_⟩, rfl⟩
  rw [Function.iterate_succ_apply']
  by_cases h : ∃ s', step ((next step)^[n] s) s'
  · left
    have he : next step ((next step)^[n] s) = h.choose := dif_pos h
    rw [he]
    exact h.choose_spec
  · right
    exact ⟨fun s' hs => h ⟨s', hs⟩, dif_neg h⟩

end CompleteRun

end Lib
