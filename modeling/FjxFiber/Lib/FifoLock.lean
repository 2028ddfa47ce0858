import FjxFiber.Lib.Trace

/-!
# What a fair lock is

A caller asks for the lock, is granted it and releases it. `read` grants the lock to one caller at
a time, in the order in which they have asked. `Kept` says what this means for what has been read
so far: the releases are those of the callers that were granted the lock, in the same order and
each before the next grant, and the grants are in the order of the requests.
-/

set_option autoImplicit false

namespace Lib.FifoLock

variable {ι : Type*}

inductive Event (ι : Type*)
  | ask (t : ι)
  | grant (t : ι)
  | release (t : ι)
  deriving DecidableEq, Repr

structure State (ι : Type*) where
  owner : Option ι
  /-- Those that have asked, the first one first. -/
  waiting : List ι
  deriving DecidableEq, Repr

def start : State ι := { owner := none, waiting := [] }

def read [DecidableEq ι] (a : State ι) : Event ι → Option (State ι)
  | .ask t => some { a with waiting := a.waiting ++ [t] }
  | .grant t =>
    if a.owner = none ∧ a.waiting.head? = some t then
      some { owner := some t, waiting := a.waiting.tail }
    else none
  | .release t => if a.owner = some t then some { a with owner := none } else none

/-! ## What has been read -/

namespace Event

@[simp] def asks : Event ι → Option ι
  | ask t => some t
  | _ => none

@[simp] def grants : Event ι → Option ι
  | grant t => some t
  | _ => none

@[simp] def releases : Event ι → Option ι
  | release t => some t
  | _ => none

end Event

structure Kept (l : List (Event ι)) (a : State ι) : Prop where
  fifo : l.filterMap Event.asks = l.filterMap Event.grants ++ a.waiting
  exclusive : l.filterMap Event.grants = l.filterMap Event.releases ++ a.owner.toList

variable [DecidableEq ι]

theorem read_grant {a a' : State ι} {t : ι} :
    read a (.grant t) = some a' ↔
      a.owner = none ∧ ∃ r, a.waiting = t :: r ∧ a' = { owner := some t, waiting := r } := by
  simp only [read, Option.ite_none_right_eq_some, Option.some.injEq, List.head?_eq_some_iff]
  constructor
  · rintro ⟨⟨ho, r, hr⟩, rfl⟩
    exact ⟨ho, r, hr, by rw [hr]; rfl⟩
  · rintro ⟨ho, r, hr, rfl⟩
    exact ⟨⟨ho, r, hr⟩, by rw [hr]; rfl⟩

theorem read_release {a a' : State ι} {t : ι} :
    read a (.release t) = some a' ↔ a.owner = some t ∧ a' = { a with owner := none } := by
  simp [read, eq_comm]

theorem Kept.read {l : List (Event ι)} {a a' : State ι} {e : Event ι} (h : Kept l a)
    (he : read a e = some a') : Kept (l ++ [e]) a' := by
  obtain ⟨hf, hx⟩ := h
  cases e with
  | ask t =>
    obtain rfl := Option.some.inj he
    exact ⟨by simp [hf, List.filterMap_cons], by simp [hx, List.filterMap_cons]⟩
  | grant t =>
    obtain ⟨ho, r, hr, rfl⟩ := read_grant.1 he
    rw [hr] at hf
    rw [ho] at hx
    exact ⟨by simp [hf, List.filterMap_cons], by simp [hx, List.filterMap_cons]⟩
  | release t =>
    obtain ⟨ho, rfl⟩ := read_release.1 he
    rw [ho] at hx
    exact ⟨by simp [hf, List.filterMap_cons], by simp [hx, List.filterMap_cons]⟩

/-- **What is read is a first-come, first-served lock.** -/
theorem kept {l : List (Event ι)} {a : State ι} (h : readAll read start l = some a) : Kept l a :=
  readAll_induction ⟨rfl, rfl⟩ (fun _ _ _ _ hJ he => hJ.read he) h

end Lib.FifoLock
