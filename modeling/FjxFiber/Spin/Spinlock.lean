import Mathlib.Logic.Function.Basic
import FjxFiber.Lib.FairRun
import FjxFiber.Lib.Reach

/-!
# `fjx_spinlock`

The test-and-test-and-set lock of `src/std-thread.c`, access by access. There is no queue, so a
caller may be overtaken without end; what the lock does promise is that only one thread has it
(`Reached.sound`), and that while somebody waits somebody gets it (`spinlock_goes_on`).
-/

set_option autoImplicit false

namespace Spin.Spinlock

open Lib

variable {ι : Type*} [DecidableEq ι]

/-- Where a thread is, named by the access it comes to next. -/
inductive Pc
  | out
  /-- `atomic_exchange_explicit(lock, 1, …)`. -/
  | exchange
  /-- `atomic_load_explicit(lock, …)`, of the inner loop. -/
  | load
  /-- Past the loop. What it comes to next is the store of `spinlock_unlock`. -/
  | held
  deriving DecidableEq, Repr

structure State (ι : Type*) where
  lock : Int
  pc : ι → Pc

/-- `fjx_spinlock_init`. -/
def fjxSpinlockInit : State ι := { lock := 0, pc := fun _ => .out }

def goto (s : State ι) (t : ι) (p : Pc) : State ι := { s with pc := Function.update s.pc t p }

/-- The next access of `fjx_spinlock_lock`, or of `fjx_spinlock_unlock` once the lock is held. -/
def access (s : State ι) (t : ι) : Option (State ι) :=
  match s.pc t with
  | .out => none
  | .exchange => some (goto { s with lock := 1 } t (if s.lock = 0 then .held else .load))
  | .load => some (goto s t (if s.lock = 0 then .exchange else .load))
  | .held => some (goto { s with lock := 0 } t .out)

/-- A step is that of a thread inside a call or with the lock, or a new call. -/
inductive Step (s : State ι) : Option ι → State ι → Prop
  | call {t : ι} (h : s.pc t = .out) : Step s none (goto s t .exchange)
  | access {t : ι} {s' : State ι} (h : access s t = some s') : Step s (some t) s'
  /-- Whatever else the threads do. -/
  | other : Step s none s

def Reached (s : State ι) : Prop :=
  Reachable (fun s => s = fjxSpinlockInit) (fun s s' => ∃ o, Step s o s') s

def Pc.Waits : Pc → Prop
  | exchange | load => True
  | out | held => False

/-- `t` has the lock from its `m`-th step on. -/
def Enters (ρ : FairRun (Step (ι := ι)) fun s t => s.pc t ≠ .out) (m : Nat) (t : ι) : Prop :=
  ρ.mover m = some t ∧ (ρ.state m).pc t ≠ .held ∧ (ρ.state (m + 1)).pc t = .held

/-! ## Exclusion -/

@[simp] theorem goto_lock (s : State ι) (t : ι) (p : Pc) : (goto s t p).lock = s.lock := rfl

@[simp] theorem goto_pc_self (s : State ι) (t : ι) (p : Pc) : (goto s t p).pc t = p := by
  simp [goto]

theorem goto_pc_other (s : State ι) {t u : ι} (p : Pc) (h : u ≠ t) :
    (goto s t p).pc u = s.pc u := by
  simp [goto, h]

/-- The word tells whether somebody has the lock, and there is no second one. -/
structure Sound (s : State ι) : Prop where
  free : s.lock = 0 → ∀ t, s.pc t ≠ .held
  taken : s.lock ≠ 0 → ∃ t, s.pc t = .held
  one : ∀ t u, s.pc t = .held → s.pc u = .held → t = u

/-- What the next access of `t` finds and leaves. -/
theorem access_cases {s s' : State ι} {t : ι} (h : access s t = some s') :
    (s.pc t = .exchange ∧ s.lock = 0 ∧ s' = goto { s with lock := 1 } t .held) ∨
    (s.pc t = .exchange ∧ s.lock ≠ 0 ∧ s' = goto { s with lock := 1 } t .load) ∨
    (s.pc t = .load ∧ s.lock = 0 ∧ s' = goto s t .exchange) ∨
    (s.pc t = .load ∧ s.lock ≠ 0 ∧ s' = goto s t .load) ∨
    s.pc t = .held ∧ s' = goto { s with lock := 0 } t .out := by
  unfold access at h
  cases hp : s.pc t with
  | out => simp [hp] at h
  | held =>
    rw [hp] at h
    exact .inr (.inr (.inr (.inr ⟨rfl, (Option.some.inj h).symm⟩)))
  | exchange | load =>
    rw [hp] at h
    obtain rfl := Option.some.inj h
    by_cases hl : s.lock = 0 <;> simp [hl]

theorem Sound.goto {s : State ι} {l : Int} {t : ι} {p : Pc} (h : Sound s) (hp : p ≠ .held)
    (ht : s.pc t ≠ .held) (hl : l = 0 ↔ s.lock = 0) : Sound (goto { s with lock := l } t p) := by
  have hheld : ∀ u, (Spinlock.goto { s with lock := l } t p).pc u = .held ↔ s.pc u = .held := by
    intro u
    by_cases hu : u = t
    · rw [hu, goto_pc_self]
      exact ⟨fun he => absurd he hp, fun he => absurd he ht⟩
    · rw [goto_pc_other _ p hu]
  constructor
  · intro h0 u hu
    exact h.free (hl.1 h0) u ((hheld u).1 hu)
  · intro h0
    obtain ⟨u, hu⟩ := h.taken fun he => h0 (hl.2 he)
    exact ⟨u, (hheld u).2 hu⟩
  · intro u v hu hv
    exact h.one u v ((hheld u).1 hu) ((hheld v).1 hv)

theorem Sound.step {s s' : State ι} {o : Option ι} (h : Sound s) (hs : Step s o s') : Sound s' := by
  cases hs with
  | other => exact h
  | call hp => exact h.goto (l := s.lock) (by decide) (by rw [hp]; decide) Iff.rfl
  | @access t s' hs =>
    rcases access_cases hs with ⟨hp, hl, rfl⟩ | ⟨hp, hl, rfl⟩ | ⟨hp, -, rfl⟩ | ⟨hp, -, rfl⟩ |
      ⟨hp, rfl⟩
    · have hother : ∀ u, (Spinlock.goto { s with lock := 1 } t .held).pc u = .held → u = t := by
        intro u hu
        by_contra hne
        rw [goto_pc_other _ _ hne] at hu
        exact h.free hl u hu
      refine ⟨fun h0 => absurd h0 Int.one_ne_zero, fun _ => ⟨t, goto_pc_self ..⟩, ?_⟩
      intro u v hu hv
      rw [hother u hu, hother v hv]
    · refine h.goto (by decide) (by rw [hp]; decide) ⟨fun h0 => absurd h0 (by decide), fun h0 => ?_⟩
      exact absurd h0 hl
    · exact h.goto (l := s.lock) (by decide) (by rw [hp]; decide) Iff.rfl
    · exact h.goto (l := s.lock) (by decide) (by rw [hp]; decide) Iff.rfl
    · have hnone : ∀ u, (Spinlock.goto { s with lock := 0 } t .out).pc u ≠ .held := by
        intro u hu
        by_cases hut : u = t
        · rw [hut, goto_pc_self] at hu
          cases hu
        · rw [goto_pc_other _ _ hut] at hu
          exact hut (h.one u t hu hp)
      refine ⟨fun _ => hnone, fun h0 => absurd rfl h0, ?_⟩
      intro u v hu
      exact absurd hu (hnone u)

theorem Reached.sound {s : State ι} (h : Reached s) : Sound s := by
  apply h.invariant
  · rintro s rfl
    refine ⟨?_, fun h0 => absurd rfl h0, ?_⟩
    · intro _ t ht
      cases ht
    · intro t u ht
      cases ht
  · rintro s s' hs ⟨o, hst⟩
    exact hs.step hst

/-! ## Somebody gets on -/

/-- The moves left to `w`, once the lock is free. -/
def Pc.rank : Pc → Nat
  | load => 1
  | _ => 0

/-- Whose turn it is for `w` to stop waiting: that of the thread with the lock, else its own. -/
def Turn (w : ι) (s : State ι) (k : Nat) (t : ι) : Prop :=
  (s.pc w).Waits ∧ ((s.lock ≠ 0 ∧ k = 2 ∧ s.pc t = .held) ∨
    s.lock = 0 ∧ t = w ∧ k = (s.pc w).rank)

omit [DecidableEq ι] in
theorem Turn.of_sound {s : State ι} {w : ι} (h : Sound s) (hw : (s.pc w).Waits) :
    ∃ k t, Turn w s k t := by
  by_cases hl : s.lock = 0
  · exact ⟨_, w, hw, .inr ⟨hl, rfl, rfl⟩⟩
  · obtain ⟨t, ht⟩ := h.taken hl
    exact ⟨2, t, hw, .inl ⟨hl, rfl, ht⟩⟩

omit [DecidableEq ι] in
theorem Turn.busy {s : State ι} {w t : ι} {k : Nat} (h : Turn w s k t) : s.pc t ≠ .out := by
  obtain ⟨hw, ⟨-, -, ht⟩ | ⟨-, rfl, -⟩⟩ := h
  · rw [ht]
    decide
  · intro ht
    rw [ht] at hw
    exact hw

/-- A failed try leaves the turn with the thread that has the lock. -/
theorem Turn.spins {s : State ι} {l : Int} {w t u : ι} (hw : (s.pc w).Waits) (hl : l ≠ 0)
    (ht : s.pc t = .held) (hu : s.pc u ≠ .held) :
    Turn w (goto { s with lock := l } u .load) 2 t := by
  have htu : t ≠ u := by
    rintro rfl
    exact hu ht
  refine ⟨?_, .inl ⟨hl, rfl, by rwa [goto_pc_other _ _ htu]⟩⟩
  by_cases hwu : w = u
  · rw [hwu, goto_pc_self]
    exact trivial
  · rwa [goto_pc_other _ _ hwu]

/-- Somebody gets the lock, or the turn stays where it is until its move. -/
theorem Turn.step {s s' : State ι} {o : Option ι} {w t : ι} {k : Nat} (h : Turn w s k t)
    (hi : Sound s) (hs : Step s o s') :
    (∃ u, o = some u ∧ s.pc u ≠ .held ∧ s'.pc u = .held) ∨
    ∃ k' t', Turn w s' k' t' ∧ (k' < k ∨ k' = k ∧ t' = t ∧ o ≠ some t) := by
  obtain ⟨hw, hturn⟩ := h
  cases hs with
  | other => exact .inr ⟨k, t, ⟨hw, hturn⟩, .inr ⟨rfl, rfl, by simp⟩⟩
  | @call u hu =>
    have hwu : w ≠ u := by
      rintro rfl
      rw [hu] at hw
      exact hw
    refine .inr ⟨k, t, ⟨by rwa [goto_pc_other _ _ hwu], ?_⟩, .inr ⟨rfl, rfl, by simp⟩⟩
    rcases hturn with ⟨hl, hk, ht⟩ | ⟨hl, rfl, hk⟩
    · have htu : t ≠ u := by
        rintro rfl
        rw [hu] at ht
        cases ht
      exact .inl ⟨hl, hk, by rwa [goto_pc_other _ _ htu]⟩
    · exact .inr ⟨hl, rfl, by rwa [goto_pc_other _ _ hwu]⟩
  | @access u s' hs =>
    rcases access_cases hs with ⟨hu, -, rfl⟩ | ⟨hu, hl, rfl⟩ | ⟨hu, hl, rfl⟩ | ⟨hu, hl, rfl⟩ |
      ⟨hu, rfl⟩
    · exact .inl ⟨u, rfl, by rw [hu]; decide, goto_pc_self ..⟩
    · obtain ⟨-, rfl, ht⟩ | ⟨h0, -⟩ := hturn
      · have hne : s.pc u ≠ .held := by rw [hu]; decide
        refine .inr ⟨2, t, .spins hw Int.one_ne_zero ht hne, .inr ⟨rfl, rfl, ?_⟩⟩
        rintro ⟨⟩
        exact hne ht
      · exact absurd h0 hl
    · obtain ⟨h0, -⟩ | ⟨-, rfl, rfl⟩ := hturn
      · exact absurd hl h0
      by_cases htu : t = u
      · subst htu
        refine .inr ⟨0, t, ⟨by rw [goto_pc_self]; trivial, .inr ⟨hl, rfl, ?_⟩⟩, .inl ?_⟩
        · rw [goto_pc_self]
          rfl
        · rw [hu]
          decide
      · have hpc := goto_pc_other s .exchange htu
        refine .inr ⟨_, t, ⟨by rwa [hpc], .inr ⟨hl, rfl, rfl⟩⟩, .inr ⟨by rw [hpc], rfl, ?_⟩⟩
        rintro ⟨⟩
        exact htu rfl
    · obtain ⟨-, rfl, ht⟩ | ⟨h0, -⟩ := hturn
      · have hne : s.pc u ≠ .held := by rw [hu]; decide
        refine .inr ⟨2, t, .spins (l := s.lock) hw hl ht hne, .inr ⟨rfl, rfl, ?_⟩⟩
        rintro ⟨⟩
        exact hne ht
      · exact absurd h0 hl
    · obtain ⟨-, rfl, -⟩ | ⟨h0, -⟩ := hturn
      · have hwu : w ≠ u := by
          rintro rfl
          rw [hu] at hw
          exact hw
        refine .inr ⟨_, w, ⟨by rwa [goto_pc_other _ _ hwu], .inr ⟨rfl, rfl, rfl⟩⟩, .inl ?_⟩
        unfold Pc.rank
        split <;> decide
      · exact absurd hu (hi.free h0 u)

/-- The thread that has the lock keeps it until its store. -/
theorem Step.held {s s' : State ι} {o : Option ι} {t : ι} (hs : Step s o s')
    (ht : s.pc t = .held) : s'.pc t = .out ∨ s'.pc t = .held ∧ o ≠ some t := by
  cases hs with
  | other => exact .inr ⟨ht, by simp⟩
  | @call u hu =>
    have htu : t ≠ u := by
      rintro rfl
      rw [hu] at ht
      cases ht
    exact .inr ⟨by rwa [goto_pc_other _ _ htu], by simp⟩
  | @access u s' hs =>
    by_cases htu : t = u
    · subst htu
      left
      rcases access_cases hs with ⟨hu, -⟩ | ⟨hu, -⟩ | ⟨hu, -⟩ | ⟨hu, -⟩ | ⟨-, rfl⟩ <;>
        first | exact goto_pc_self .. | (rw [hu] at ht; cases ht)
    · refine .inr ⟨?_, ?_⟩
      · rcases access_cases hs with ⟨-, -, rfl⟩ | ⟨-, -, rfl⟩ | ⟨-, -, rfl⟩ | ⟨-, -, rfl⟩ |
          ⟨-, rfl⟩ <;>
          rwa [goto_pc_other _ _ htu]
      · rintro ⟨⟩
        exact htu rfl

/-- **One at a time, and never none.** At every point of a fair run from `fjx_spinlock_init` at most
one thread has `fjx_spinlock`; if some thread waits in `fjx_spinlock_lock` then some thread gets the
lock at a later step, and one that has it returns from `fjx_spinlock_unlock`. -/
theorem spinlock_goes_on (ρ : FairRun (Step (ι := ι)) fun s t => s.pc t ≠ .out)
    (h0 : Reached (ρ.state 0)) (n : Nat) :
    (∀ t u, (ρ.state n).pc t = .held → (ρ.state n).pc u = .held → t = u) ∧
    ((∃ w, ((ρ.state n).pc w).Waits) → ∃ m t, n ≤ m ∧ Enters ρ m t) ∧
    ∀ t, (ρ.state n).pc t = .held → ∃ m, n < m ∧ (ρ.state m).pc t = .out := by
  have hsound : ∀ n, Sound (ρ.state n) := fun n =>
    ρ.always (fun _ _ _ hs hst => hs.step hst) (Nat.zero_le n) h0.sound
  refine ⟨(hsound n).one, ?_, ?_⟩
  · rintro ⟨w, hw⟩
    obtain ⟨k, t, hturn⟩ := Turn.of_sound (hsound n) hw
    obtain ⟨m, hm, j, u, rfl, hu⟩ := ρ.eventually (G := fun m => ∃ j u, m = j + 1 ∧ Enters ρ j u)
      (fun n k t hd => ⟨hd.busy, by
        obtain ⟨u, ho, hu, hu'⟩ | hd' := hd.step (hsound n) (ρ.step n)
        · exact .inl ⟨n, u, rfl, ho, hu, hu'⟩
        · exact .inr hd'⟩) hturn
    exact ⟨j, u, by omega, hu⟩
  · intro t ht
    refine ρ.eventually (D := fun s k u => k = 0 ∧ u = t ∧ s.pc t = .held) ?_ ⟨rfl, rfl, ht⟩
    rintro n k u ⟨rfl, rfl, hu⟩
    refine ⟨by rw [hu]; decide, ?_⟩
    obtain hout | ⟨hu', ho⟩ := (ρ.step n).held hu
    · exact .inl hout
    · exact .inr ⟨0, u, ⟨rfl, rfl, hu'⟩, .inr ⟨rfl, rfl, ho⟩⟩

/-- Of two callers the second one finds the lock taken, and spins until it is released. -/
theorem spinlock_goes_on_run : ∃ ρ : FairRun (Step (ι := Bool)) fun s t => s.pc t ≠ .out,
    (∀ t, ((ρ.state 0).pc t).Waits) ∧ ∃ m t, 0 ≤ m ∧ Enters ρ m t := by
  have h₁ : Reached (goto fjxSpinlockInit true .exchange) :=
    Reachable.next (.start rfl) ⟨none, .call rfl⟩
  have h₂ : Reached (goto (goto fjxSpinlockInit true .exchange) false .exchange) :=
    h₁.next ⟨none, .call rfl⟩
  have hm : ∃ s, [true, false, false, true, false, false, false].foldlM access
      (goto (goto fjxSpinlockInit true .exchange) false .exchange) = some s ∧
      ∀ t, s.pc t = .out := by
    refine ⟨_, rfl, ?_⟩
    intro t
    cases t <;> rfl
  obtain ⟨s, hs, hout⟩ := hm
  obtain ⟨ρ, hρ⟩ : ∃ ρ : FairRun Step fun s t => s.pc t ≠ .out, ρ.state 0 = _ :=
    FairRun.of_moves (fun _ _ _ h => .access h) hs .other fun t hb => hb (hout t)
  have hwaits : ∀ t, ((ρ.state 0).pc t).Waits := by
    intro t
    rw [hρ]
    cases t <;> exact trivial
  exact ⟨ρ, hwaits, (spinlock_goes_on ρ (hρ ▸ h₂) 0).2.1 ⟨false, hwaits false⟩⟩

end Spin.Spinlock
