import Mathlib.Order.Basic

/-!
# Fair runs

`FairRun step busy`: an infinite run of threads and of what is around them, in which no thread that
is busy is passed over for ever. `FairRun.eventually` is the rule for what happens in all of them:
as long as the goal is not reached there is one thread whose turn it is, with a rank; its move
lowers the rank, and what the others do neither raises the rank nor takes the turn from it.
-/

set_option autoImplicit false

namespace Lib

variable {σ ι : Type*} {step : σ → Option ι → σ → Prop} {busy : σ → ι → Prop}

structure FairRun (step : σ → Option ι → σ → Prop) (busy : σ → ι → Prop) where
  state : Nat → σ
  /-- The thread that moves, unless it is none of them. -/
  mover : Nat → Option ι
  step : ∀ n, step (state n) (mover n) (state (n + 1))
  fair : ∀ t n, ∃ m, n ≤ m ∧ (mover m = some t ∨ ¬ busy (state m) t)

namespace FairRun

/-- What every step keeps holds from any point of the run on. -/
theorem always (ρ : FairRun step busy) {J : σ → Prop} (hs : ∀ s o s', J s → step s o s' → J s')
    {n m : Nat} (hn : n ≤ m) (h : J (ρ.state n)) : J (ρ.state m) := by
  induction hn with
  | refl => exact h
  | step hn ih => exact hs _ _ _ ih (ρ.step _)

/-- The thread whose turn it is by `D` keeps it, with its rank, until the run lowers the rank or
reaches the goal `G`. -/
theorem wait (ρ : FairRun step busy) {G : Nat → Prop} {D : σ → Nat → ι → Prop}
    (hs : ∀ n k t, D (ρ.state n) k t → busy (ρ.state n) t ∧ (G (n + 1) ∨
      ∃ k' t', D (ρ.state (n + 1)) k' t' ∧ (k' < k ∨ k' = k ∧ t' = t ∧ ρ.mover n ≠ some t)))
    {d n k : Nat} {t : ι} (h : D (ρ.state n) k t)
    (hd : ρ.mover (n + d) = some t ∨ ¬ busy (ρ.state (n + d)) t) :
    ∃ m, n < m ∧ (G m ∨ ∃ k' t', D (ρ.state m) k' t' ∧ k' < k) := by
  induction d generalizing n with
  | zero =>
    obtain ⟨hb, hg | ⟨k', t', ht, hk⟩⟩ := hs n k t h
    · exact ⟨n + 1, by omega, .inl hg⟩
    · refine ⟨n + 1, by omega, .inr ⟨k', t', ht, ?_⟩⟩
      rcases hk with hk | ⟨-, -, hm⟩
      · exact hk
      · rcases hd with hd | hd
        · exact absurd hd hm
        · exact absurd hb hd
  | succ d ih =>
    obtain ⟨-, hg | ⟨k', t', ht, hk | ⟨rfl, rfl, -⟩⟩⟩ := hs n k t h
    · exact ⟨n + 1, by omega, .inl hg⟩
    · exact ⟨n + 1, by omega, .inr ⟨k', t', ht, hk⟩⟩
    · rw [show n + (d + 1) = n + 1 + d by omega] at hd
      obtain ⟨m, hm, hg⟩ := ih ht hd
      exact ⟨m, by omega, hg⟩

/-- **The rule of the thread whose turn it is.** -/
theorem eventually (ρ : FairRun step busy) {G : Nat → Prop} {D : σ → Nat → ι → Prop}
    (hs : ∀ n k t, D (ρ.state n) k t → busy (ρ.state n) t ∧ (G (n + 1) ∨
      ∃ k' t', D (ρ.state (n + 1)) k' t' ∧ (k' < k ∨ k' = k ∧ t' = t ∧ ρ.mover n ≠ some t)))
    {n k : Nat} {t : ι} (h : D (ρ.state n) k t) : ∃ m, n < m ∧ G m := by
  induction k using Nat.strongRecOn generalizing n t with
  | ind k ih =>
    obtain ⟨m, hm, hf⟩ := ρ.fair t n
    obtain ⟨d, rfl⟩ := Nat.exists_eq_add_of_le hm
    obtain ⟨m, hm, hg | ⟨k', t', ht, hk⟩⟩ := ρ.wait hs h hf
    · exact ⟨m, hm, hg⟩
    · obtain ⟨m', hm', hg⟩ := ih k' hk ht
      exact ⟨m', by omega, hg⟩

/-! ## Runs put together -/

/-- Nothing is to be done any more. -/
def idle {s : σ} (hs : step s none s) (hb : ∀ t, ¬ busy s t) : FairRun step busy where
  state _ := s
  mover _ := none
  step _ := hs
  fair t n := ⟨n, Nat.le_refl n, .inr (hb t)⟩

def cons (ρ : FairRun step busy) {s : σ} {o : Option ι} (hs : step s o (ρ.state 0)) :
    FairRun step busy where
  state
    | 0 => s
    | n + 1 => ρ.state n
  mover
    | 0 => o
    | n + 1 => ρ.mover n
  step
    | 0 => hs
    | n + 1 => ρ.step n
  fair t
    | 0 => by
      obtain ⟨m, -, hm⟩ := ρ.fair t 0
      exact ⟨m + 1, by omega, hm⟩
    | n + 1 => by
      obtain ⟨m, hn, hm⟩ := ρ.fair t n
      exact ⟨m + 1, by omega, hm⟩

/-- Moves after which nothing is to be done begin a fair run. -/
theorem of_moves {f : σ → ι → Option σ} (hf : ∀ s t s', f s t = some s' → step s (some t) s')
    {ts : List ι} {s s' : σ} (hm : ts.foldlM f s = some s') (hs : step s' none s')
    (hb : ∀ t, ¬ busy s' t) : ∃ ρ : FairRun step busy, ρ.state 0 = s := by
  induction ts generalizing s with
  | nil =>
    obtain rfl := Option.some.inj hm
    exact ⟨.idle hs hb, rfl⟩
  | cons t ts ih =>
    rw [List.foldlM_cons] at hm
    obtain ⟨s₁, h₁, hm⟩ := Option.bind_eq_some_iff.1 hm
    obtain ⟨ρ, hρ⟩ := ih hm
    exact ⟨ρ.cons (s := s) (o := some t) (by rw [hρ]; exact hf _ _ _ h₁), rfl⟩

end FairRun

end Lib
