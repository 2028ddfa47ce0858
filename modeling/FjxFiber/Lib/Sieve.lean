import Mathlib.NumberTheory.PrimeCounting

/-!
# Trial division, prime by prime

`survivors k n` is what is left of `2, 3, …, n + 1` once the multiples of the first `k` primes have
been struck out. The first number left is the next prime (`eq_nth_of_prefix`), and striking out its
multiples leads to the next list (`survivors_succ`); this is also true of a beginning of the list,
which is all that a process that strikes out numbers one after another has seen.
-/

set_option autoImplicit false

namespace Lib.Sieve

open Nat

/-- The numbers from 2 to `n + 1` that none of the first `k` primes divides. -/
noncomputable def survivors (k n : Nat) : List Nat :=
  (List.range' 2 n).filter fun x => ∀ i < k, ¬ nth Nat.Prime i ∣ x

variable {k n p x : Nat} {l t : List Nat}

theorem mem_survivors :
    x ∈ survivors k n ↔ (2 ≤ x ∧ x < 2 + n) ∧ ∀ i < k, ¬ nth Nat.Prime i ∣ x := by
  simp [survivors, List.mem_range'_1]

theorem survivors_zero (n : Nat) : survivors 0 n = List.range' 2 n := by
  unfold survivors
  apply List.filter_eq_self.2
  simp

theorem survivors_succ (k n : Nat) :
    (survivors k n).filter (fun x => ¬ nth Nat.Prime k ∣ x) = survivors (k + 1) n := by
  unfold survivors
  rw [List.filter_filter]
  apply List.filter_congr
  intro x _
  simp only [← Bool.decide_and, decide_eq_decide]
  constructor
  · intro h i hi
    rcases Nat.lt_succ_iff_lt_or_eq.1 hi with hi | rfl
    · exact h.2 i hi
    · exact h.1
  · exact fun h => ⟨h k (by omega), fun i hi => h i (by omega)⟩

theorem survivors_sorted (k n : Nat) : (survivors k n).Pairwise (· < ·) := by
  unfold survivors
  apply List.Pairwise.filter
  exact List.pairwise_lt_range'

/-- **The first survivor is the next prime.** -/
theorem eq_nth_of_head (h : survivors k n = p :: t) : p = nth Nat.Prime k := by
  have hp : p ∈ survivors k n := by simp [h]
  obtain ⟨hb, hdvd⟩ := mem_survivors.1 hp
  -- its least prime factor is not one of the first `k` primes
  have hq : p.minFac.Prime := minFac_prime (by omega)
  have hle : nth Nat.Prime k ≤ p.minFac := by
    by_contra hlt
    have hc : count Nat.Prime p.minFac < k := by
      by_contra hk
      have hge : nth Nat.Prime k ≤ nth Nat.Prime (count Nat.Prime p.minFac) :=
        (nth_le_nth infinite_setOfPred_prime).2 (Nat.le_of_not_lt hk)
      rw [nth_count hq] at hge
      omega
    apply hdvd _ hc
    rw [nth_count hq]
    exact minFac_dvd p
  have hmin := minFac_le (n := p) (by omega)
  -- and the next prime is a survivor
  have hk : nth Nat.Prime k ∈ survivors k n := by
    refine mem_survivors.2 ⟨⟨(prime_nth_prime k).two_le, by omega⟩, fun i hi hd => ?_⟩
    have he := (prime_dvd_prime_iff_eq (prime_nth_prime i) (prime_nth_prime k)).1 hd
    have hik := nth_injective infinite_setOfPred_prime he
    omega
  have hs := survivors_sorted k n
  rw [h] at hk hs
  rcases List.mem_cons.1 hk with hk | hk
  · exact hk.symm
  · have hlt := (List.pairwise_cons.1 hs).1 _ hk
    omega

theorem eq_nth_of_prefix (h : p :: t <+: survivors k n) : p = nth Nat.Prime k := by
  obtain ⟨r, hr⟩ := h
  exact eq_nth_of_head hr.symm

/-- Striking out on a beginning of the list. -/
theorem prefix_succ (h : l <+: survivors k n) :
    l.filter (fun x => ¬ nth Nat.Prime k ∣ x) <+: survivors (k + 1) n := by
  rw [← survivors_succ]
  exact h.filter _

theorem nodup_of_prefix (h : l <+: survivors k n) : l.Nodup :=
  h.sublist.nodup ((survivors_sorted k n).imp fun h => Nat.ne_of_lt h)

/-- The only prime that is struck out is the one that strikes out. -/
theorem countP_prime_le (hp : p.Prime) (hl : l.Nodup) :
    l.countP Nat.Prime ≤ (l.filter fun x => ¬ p ∣ x).countP Nat.Prime + 1 := by
  induction l with
  | nil => simp
  | cons x l ih =>
    obtain ⟨hx, hl⟩ := List.nodup_cons.1 hl
    by_cases hd : p ∣ x
    · rw [List.filter_cons_of_neg (by simpa using hd)]
      by_cases hxp : x.Prime
      · -- `x` is `p`, which no other number of the list is
        obtain rfl := (prime_dvd_prime_iff_eq hp hxp).1 hd
        rw [List.countP_cons_of_pos (by simpa using hxp), List.countP_filter]
        apply Nat.succ_le_succ
        apply List.countP_mono_left
        intro y hy hyp
        have hyp : y.Prime := by simpa using hyp
        have hne : ¬ p ∣ y := fun he => hx ((prime_dvd_prime_iff_eq hp hyp).1 he ▸ hy)
        simpa using ⟨hyp, hne⟩
      · rw [List.countP_cons_of_neg (by simpa using hxp)]
        exact ih hl
    · rw [List.filter_cons_of_pos (by simpa using hd), List.countP_cons, List.countP_cons]
      have := ih hl
      omega

end Lib.Sieve
