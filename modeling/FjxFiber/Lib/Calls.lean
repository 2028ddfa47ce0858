import Mathlib.Data.Set.Card

/-!
# Counting calls

Any number of threads call operations `α` of an object. Each call is made, has its effect and
returns; `Counts` counts the three events for each operation, and `Tallied` says that the counts
agree with where the threads are. Hence no more calls return than had their effect, and no more had
it than were made (`Tallied.returned_le`, `Tallied.passes_le`).
-/

set_option autoImplicit false

namespace Lib

variable {ι α : Type*}

/-- Where a thread is: in no call, before the effect of its call, or after it. -/
inductive Phase (α : Type*)
  | out
  | before (a : α)
  | after (a : α)

/-- What a step of an object is, seen from outside. -/
inductive Act (ι α : Type*)
  | silent
  | call (t : ι) (a : α)
  /-- The call has its effect. -/
  | pass (t : ι) (a : α)
  /-- The call is going to return without its effect. -/
  | interrupt (t : ι) (a : α)
  | ret (t : ι) (a : α)

structure Counts (α : Type*) where
  calls : α → Nat
  passes : α → Nat
  returned : α → Nat

namespace Counts

def zero : Counts α := ⟨fun _ => 0, fun _ => 0, fun _ => 0⟩

variable [DecidableEq α]

def call (n : Counts α) (a : α) : Counts α :=
  { n with calls := Function.update n.calls a (n.calls a + 1) }

def pass (n : Counts α) (a : α) : Counts α :=
  { n with passes := Function.update n.passes a (n.passes a + 1) }

def ret (n : Counts α) (a : α) : Counts α :=
  { n with returned := Function.update n.returned a (n.returned a + 1) }

/-- What a step does to the counts. -/
def act {ι : Type*} (n : Counts α) : Act ι α → Counts α
  | .silent => n
  | .call _ a => n.call a
  | .pass _ a | .interrupt _ a => n.pass a
  | .ret _ a => n.ret a

end Counts

namespace Act

/-- What a step does to where the threads are. -/
def phase [DecidableEq ι] (ph : ι → Phase α) : Act ι α → ι → Phase α
  | silent => ph
  | call t a => Function.update ph t (.before a)
  | pass t a | interrupt t a => Function.update ph t (.after a)
  | ret t _ => Function.update ph t .out

/-- The thread of the step is where the step starts from. -/
def Fits (ph : ι → Phase α) : Act ι α → Prop
  | silent => True
  | call t _ => ph t = .out
  | pass t a | interrupt t a => ph t = .before a
  | ret t a => ph t = .after a

end Act

/-- The calls made are those that wait for their effect and those that had it; the latter have
returned or are about to. -/
structure Tallied (ph : ι → Phase α) (n : Counts α) : Prop where
  before : ∀ a, {t | ph t = .before a}.encard + n.passes a = n.calls a
  after : ∀ a, {t | ph t = .after a}.encard + n.returned a = n.passes a

section
variable {ph : ι → Phase α} {n : Counts α}

theorem Tallied.zero (h : ∀ t, ph t = .out) : Tallied ph .zero where
  before a := by simp [h, Counts.zero]
  after a := by simp [h, Counts.zero]

theorem Tallied.passes_le (h : Tallied ph n) (a : α) : n.passes a ≤ n.calls a := by
  have hle : (n.passes a : ℕ∞) ≤ n.calls a := by
    rw [← h.before a]
    exact le_add_self
  exact_mod_cast hle

theorem Tallied.returned_le (h : Tallied ph n) (a : α) : n.returned a ≤ n.passes a := by
  have hle : (n.returned a : ℕ∞) ≤ n.passes a := by
    rw [← h.after a]
    exact le_add_self
  exact_mod_cast hle

variable [DecidableEq ι] {t : ι} {p q : Phase α}

theorem setOf_update_enter :
    {u | Function.update ph t p u = p} = insert t {u | ph u = p} := by
  ext u
  by_cases hu : u = t <;> simp [hu]

theorem setOf_update_leave (hq : q ≠ p) :
    {u | Function.update ph t q u = p} = {u | ph u = p} \ {t} := by
  ext u
  by_cases hu : u = t <;> simp [hu, hq]

theorem setOf_update_other (ht : ph t ≠ p) (hq : q ≠ p) :
    {u | Function.update ph t q u = p} = {u | ph u = p} := by
  ext u
  by_cases hu : u = t
  · subst hu
    simp [ht, hq]
  · simp [hu]

/-- A thread enters a phase. -/
theorem encard_update_enter (ht : ph t ≠ p) :
    {u | Function.update ph t p u = p}.encard = {u | ph u = p}.encard + 1 := by
  have hn : t ∉ {u | ph u = p} := ht
  rw [setOf_update_enter, Set.encard_insert_of_notMem hn]

/-- A thread leaves a phase. -/
theorem encard_update_leave (ht : ph t = p) (hq : q ≠ p) :
    {u | Function.update ph t q u = p}.encard + 1 = {u | ph u = p}.encard := by
  have hm : t ∈ {u | ph u = p} := ht
  rw [setOf_update_leave hq, Set.encard_sdiff_singleton_add_one hm]

variable [DecidableEq α]

theorem Tallied.call (h : Tallied ph n) (ht : ph t = .out) (a : α) :
    Tallied (Function.update ph t (.before a)) (n.call a) where
  before b := by
    by_cases hb : b = a
    · subst hb
      rw [encard_update_enter (by simp [ht])]
      simp only [Counts.call, Function.update_self, Nat.cast_add, Nat.cast_one]
      rw [add_right_comm, h.before b]
    · rw [setOf_update_other (by simp [ht]) (by simpa using Ne.symm hb)]
      simpa [Counts.call, hb] using h.before b
  after b := by
    rw [setOf_update_other (by simp [ht]) (by simp)]
    exact h.after b

theorem Tallied.pass {a : α} (h : Tallied ph n) (ht : ph t = .before a) :
    Tallied (Function.update ph t (.after a)) (n.pass a) where
  before b := by
    by_cases hb : b = a
    · subst hb
      have hl := encard_update_leave (q := .after b) ht (by simp)
      simp only [Counts.pass, Function.update_self, Nat.cast_add, Nat.cast_one]
      rw [← add_assoc, add_right_comm, hl, h.before b]
    · rw [setOf_update_other (by simpa [ht] using Ne.symm hb) (by simp)]
      simpa [Counts.pass, hb] using h.before b
  after b := by
    by_cases hb : b = a
    · subst hb
      rw [encard_update_enter (by simp [ht])]
      simp only [Counts.pass, Function.update_self, Nat.cast_add, Nat.cast_one]
      rw [add_right_comm, h.after b]
    · rw [setOf_update_other (by simp [ht]) (by simpa using Ne.symm hb)]
      simpa [Counts.pass, hb] using h.after b

theorem Tallied.ret {a : α} (h : Tallied ph n) (ht : ph t = .after a) :
    Tallied (Function.update ph t .out) (n.ret a) where
  before b := by
    rw [setOf_update_other (by simp [ht]) (by simp)]
    exact h.before b
  after b := by
    by_cases hb : b = a
    · subst hb
      have hl := encard_update_leave (q := .out) ht (by simp)
      simp only [Counts.ret, Function.update_self, Nat.cast_add, Nat.cast_one]
      rw [← add_assoc, add_right_comm, hl, h.after b]
    · rw [setOf_update_other (by simpa [ht] using Ne.symm hb) (by simp)]
      simpa [Counts.ret, hb] using h.after b

theorem Tallied.act {act : Act ι α} (h : Tallied ph n) (ha : act.Fits ph) :
    Tallied (act.phase ph) (n.act act) := by
  cases act with
  | silent => exact h
  | call t a => exact h.call ha a
  | pass t a | interrupt t a => exact h.pass ha
  | ret t a => exact h.ret ha

end

end Lib
