import FjxFiber.Lib.Reach
import Mathlib.Data.List.Induction

/-!
# Traces and refinement

The steps of a system may be seen from outside as events. A specification is a machine that reads
events: `read a e` is the state after the event `e`, or `none` if `e` must not happen then. A system
refines it when what is seen of each of its runs can be read (`Traced.refines`, a forward
simulation).
-/

set_option autoImplicit false

namespace Lib

variable {σ α E : Type*} {init : σ → Prop} {step : σ → List E → σ → Prop} {read : α → E → Option α}

/-- `l` is seen of a run from an initial state to `s`. -/
inductive Traced (init : σ → Prop) (step : σ → List E → σ → Prop) : List E → σ → Prop
  | start {s} (h : init s) : Traced init step [] s
  | next {l s l' s'} (h : Traced init step l s) (hs : step s l' s') :
      Traced init step (l ++ l') s'

/-- The state in which a specification has read `l`. -/
def readAll (read : α → E → Option α) (a : α) (l : List E) : Option α := l.foldlM read a

@[simp] theorem readAll_nil (a : α) : readAll read a [] = some a := rfl

@[simp] theorem readAll_cons (a : α) (e : E) (l : List E) :
    readAll read a (e :: l) = (read a e).bind fun b => readAll read b l := rfl

theorem readAll_append (a : α) (l l' : List E) :
    readAll read a (l ++ l') = (readAll read a l).bind fun b => readAll read b l' := by
  unfold readAll
  rw [List.foldlM_append]
  rfl

theorem readAll_concat_eq_some {a b : α} {l : List E} {e : E} :
    readAll read a (l ++ [e]) = some b ↔ ∃ c, readAll read a l = some c ∧ read c e = some b := by
  simp [readAll_append, Option.bind_eq_some_iff]

/-- **The induction over what a specification reads.** -/
theorem readAll_induction {a₀ a : α} {l : List E} {J : List E → α → Prop} (h0 : J [] a₀)
    (hs : ∀ l a e a', J l a → read a e = some a' → J (l ++ [e]) a')
    (h : readAll read a₀ l = some a) : J l a := by
  induction l using List.reverseRecOn generalizing a with
  | nil =>
    obtain rfl := Option.some.inj h
    exact h0
  | append_singleton l e ih =>
    obtain ⟨c, hc, he⟩ := readAll_concat_eq_some.1 h
    exact hs l c e a (ih hc) he

theorem Traced.reachable {step' : σ → σ → Prop} {l : List E} {s : σ}
    (hs : ∀ s l s', step s l s' → step' s s') (h : Traced init step l s) :
    Reachable init step' s := by
  induction h with
  | start h => exact .start h
  | next h hst ih => exact ih.next (hs _ _ _ hst)

/-- Every run is seen as some list of events. -/
theorem Reachable.traced {step' : σ → σ → Prop} {s : σ}
    (hs : ∀ s s', step' s s' → ∃ l, step s l s') (h : Reachable init step' s) :
    ∃ l, Traced init step l s := by
  obtain ⟨s₀, h0, hr⟩ := h
  induction hr with
  | refl => exact ⟨[], .start h0⟩
  | tail hr hst ih =>
    obtain ⟨l, hl⟩ := ih
    obtain ⟨l', hl'⟩ := hs _ _ hst
    exact ⟨l ++ l', hl.next hl'⟩

/-- **Forward simulation**: what is seen of a run is what the specification may read, and it has
read it in a state that the state of the run stands for. `I` is an invariant of the system. -/
theorem Traced.refines {R : σ → α → Prop} {I : σ → Prop} {a₀ : α} {l : List E} {s : σ}
    (hI : ∀ l s, Traced init step l s → I s) (h0 : ∀ s, init s → R s a₀)
    (hs : ∀ s l s' a, I s → R s a → step s l s' → ∃ a', readAll read a l = some a' ∧ R s' a')
    (h : Traced init step l s) : ∃ a, readAll read a₀ l = some a ∧ R s a := by
  induction h with
  | start h => exact ⟨a₀, rfl, h0 _ h⟩
  | next h hst ih =>
    obtain ⟨a, ha, hR⟩ := ih
    obtain ⟨a', ha', hR'⟩ := hs _ _ _ a (hI _ _ h) hR hst
    refine ⟨a', ?_, hR'⟩
    rw [readAll_append, ha]
    exact ha'

end Lib
