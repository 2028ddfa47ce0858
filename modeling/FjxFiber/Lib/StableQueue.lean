import Mathlib.Order.Lattice
import Mathlib.Data.List.Nodup

/-!
# Stable priority queues

A queue of entries that is sorted by key, with equal keys in the order of their arrival.
`insertStable` is stable insertion; `upTo k` and `after k` are what a reading `k` of the clock takes
and leaves.
-/

set_option autoImplicit false

namespace Lib.StableQueue

/-- A value with its key, and the number of its arrival. -/
structure Entry (κ α : Type*) where
  key : κ
  seq : Nat
  val : α
  deriving DecidableEq

variable {κ α : Type*} [LinearOrder κ] {q : List (Entry κ α)} {e : Entry κ α}

def Entry.Before (x y : Entry κ α) : Prop := x.key < y.key ∨ x.key = y.key ∧ x.seq < y.seq

/-- Sorted by key, equal keys in the order of arrival. -/
def Stable (q : List (Entry κ α)) : Prop := q.Pairwise Entry.Before

/-- The entries with a key up to `k`. -/
def upTo (k : κ) (q : List (Entry κ α)) : List (Entry κ α) := q.filter fun x => !decide (k < x.key)

/-- The entries with a key after `k`. -/
def after (k : κ) (q : List (Entry κ α)) : List (Entry κ α) := q.filter fun x => decide (k < x.key)

def insertStable (e : Entry κ α) (q : List (Entry κ α)) : List (Entry κ α) :=
  upTo e.key q ++ e :: after e.key q

@[simp] theorem mem_upTo {k : κ} {x : Entry κ α} : x ∈ upTo k q ↔ x ∈ q ∧ x.key ≤ k := by
  simp [upTo]

@[simp] theorem mem_after {k : κ} {x : Entry κ α} : x ∈ after k q ↔ x ∈ q ∧ k < x.key := by
  simp [after]

theorem mem_insertStable {x : Entry κ α} : x ∈ insertStable e q ↔ x = e ∨ x ∈ q := by
  simp only [insertStable, List.mem_append, List.mem_cons, mem_upTo, mem_after]
  rcases le_or_gt x.key e.key with h | h
  · simp [h, not_lt_of_ge h, or_comm]
  · simp [h, not_le_of_gt h]

/-- Nothing is lost between what a reading takes and what it leaves. -/
theorem upTo_after_perm (k : κ) (q : List (Entry κ α)) : (upTo k q ++ after k q).Perm q := by
  simpa [upTo, after] using List.perm_append_comm.trans
    (List.filter_append_perm (fun x => decide (k < x.key)) q)

theorem insertStable_perm (e : Entry κ α) (q : List (Entry κ α)) :
    (insertStable e q).Perm (e :: q) :=
  List.perm_middle.trans ((upTo_after_perm e.key q).cons e)

theorem Stable.upTo (h : Stable q) (k : κ) : Stable (upTo k q) := h.filter _

theorem Stable.after (h : Stable q) (k : κ) : Stable (after k q) := h.filter _

/-- **A stable queue falls in two parts** at every reading. -/
theorem Stable.split (h : Stable q) (k : κ) :
    q = StableQueue.upTo k q ++ StableQueue.after k q := by
  induction q with
  | nil => rfl
  | cons x q ih =>
    obtain ⟨hx, hq⟩ := List.pairwise_cons.1 h
    rcases le_or_gt x.key k with hk | hk
    · rw [show StableQueue.upTo k (x :: q) = x :: StableQueue.upTo k q by
          simp [StableQueue.upTo, hk],
        show StableQueue.after k (x :: q) = StableQueue.after k q by
          simp [StableQueue.after, not_lt_of_ge hk],
        List.cons_append, ← ih hq]
    · -- everything behind a later key is later
      have hlate : ∀ y ∈ x :: q, k < y.key := fun y hy => by
        rcases List.mem_cons.1 hy with rfl | hy
        · exact hk
        · rcases hx y hy with hlt | ⟨heq, -⟩
          · exact lt_trans hk hlt
          · exact heq ▸ hk
      rw [show StableQueue.upTo k (x :: q) = [] by
          simpa [StableQueue.upTo] using ⟨hk, fun y hy => hlate y (.tail _ hy)⟩,
        show StableQueue.after k (x :: q) = x :: q by
          simpa [StableQueue.after] using ⟨hk, fun y hy => hlate y (.tail _ hy)⟩]
      rfl

/-- **Stable insertion** of the latest arrival. -/
theorem Stable.insertStable (h : Stable q) (he : ∀ x ∈ q, x.seq < e.seq) :
    Stable (StableQueue.insertStable e q) := by
  refine List.pairwise_append.2 ⟨h.upTo _, List.pairwise_cons.2 ⟨fun y hy => ?_, h.after _⟩,
    fun x hx y hy => ?_⟩
  · exact .inl (mem_after.1 hy).2
  · obtain ⟨hxq, hxe⟩ := mem_upTo.1 hx
    rcases List.mem_cons.1 hy with rfl | hy
    · rcases lt_or_eq_of_le hxe with hlt | heq
      · exact .inl hlt
      · exact .inr ⟨heq, he x hxq⟩
    · exact .inl (lt_of_le_of_lt hxe (mem_after.1 hy).2)

/-- Nothing is up to `k` exactly when the first entry is later. -/
theorem Stable.upTo_eq_nil {x : Entry κ α} (h : Stable (x :: q)) (k : κ) :
    StableQueue.upTo k (x :: q) = [] ↔ k < x.key := by
  refine ⟨fun hk => ?_, fun hk => List.eq_nil_iff_forall_not_mem.2 fun y hy => ?_⟩
  · have : x ∉ StableQueue.upTo k (x :: q) := by rw [hk]; exact List.not_mem_nil
    simpa using this
  · obtain ⟨hyq, hyk⟩ := mem_upTo.1 hy
    rcases List.mem_cons.1 hyq with rfl | hyq
    · exact absurd hk (not_lt_of_ge hyk)
    · rcases (List.pairwise_cons.1 h).1 y hyq with hlt | ⟨heq, -⟩
      · exact absurd (lt_trans hk hlt) (not_lt_of_ge hyk)
      · exact absurd (heq ▸ hk) (not_lt_of_ge hyk)

/-- Nothing is after `k` exactly when the last entry is not. -/
theorem Stable.after_eq_nil {x : Entry κ α} (h : Stable (q ++ [x])) (k : κ) :
    StableQueue.after k (q ++ [x]) = [] ↔ x.key ≤ k := by
  refine ⟨fun hk => ?_, fun hk => List.eq_nil_iff_forall_not_mem.2 fun y hy => ?_⟩
  · have : x ∉ StableQueue.after k (q ++ [x]) := by rw [hk]; exact List.not_mem_nil
    simpa using this
  · obtain ⟨hyq, hyk⟩ := mem_after.1 hy
    rcases List.mem_append.1 hyq with hyq | hyq
    · rcases (List.pairwise_append.1 h).2.2 y hyq x (by simp) with hlt | ⟨heq, -⟩
      · exact absurd (lt_trans hyk hlt) (not_lt_of_ge hk)
      · exact absurd (heq ▸ hyk) (not_lt_of_ge hk)
    · obtain rfl : y = x := by simpa using hyq
      exact absurd hyk (not_lt_of_ge hk)

theorem Stable.head?_insertStable (h : Stable q) :
    (StableQueue.insertStable e q).head? =
      if StableQueue.upTo e.key q = [] then some e else q.head? := by
  have hq := congrArg List.head? (h.split e.key)
  rw [StableQueue.insertStable, List.head?_append] at *
  split
  · next hu => simp [hu]
  · next hu =>
    obtain ⟨y, l, hy⟩ := List.exists_cons_of_ne_nil hu
    simp [hy] at hq ⊢
    exact hq.symm

theorem Stable.getLast?_insertStable (h : Stable q) :
    (StableQueue.insertStable e q).getLast? =
      if StableQueue.after e.key q = [] then some e else q.getLast? := by
  have hq := congrArg List.getLast? (h.split e.key)
  rw [StableQueue.insertStable]
  split
  · next hu => simp [hu]
  · next hu =>
    obtain ⟨y, l, hy⟩ := List.exists_cons_of_ne_nil hu
    rw [hq, hy, List.getLast?_append_cons, List.getLast?_append_cons, List.getLast?_cons_cons]

end Lib.StableQueue
