import FjxFiber.Demo.DiningPhilosopher

/-!
# The table of the philosophers (`demo/dining-philosopher.c`)

The code of `DiningPhilosopher` on a mutex and semaphores whose sections are single steps: of a call
only its place is seen. `Table.Inv` says who owns the mutex, what the owner has read in `state`,
what `state` says of each philosopher, and where the token of a philosopher that eats is; so
neighbours never eat at once, and a hungry philosopher has a neighbour that eats or will be tested
by the owner.
-/

set_option autoImplicit false

namespace Demo.DiningPhilosopher

open Lib Lib.Monitor Sync

@[ext] structure Table where
  state : Ph → PhState
  pc : Ph → Pc
  /-- The place of each philosopher's call on `m`, and on `s[k]`. -/
  mp : Ph → Place MutexOp
  sp : Ph → Ph → Place SemaphoreOp
  owners : List Ph
  count : Ph → Nat
  /-- The signals that were dropped. -/
  dropped : Ph → Nat

/-- What is stored in `state`. -/
def Act.storeTo (state : Ph → PhState) : Act → Ph → PhState
  | .store j v => Function.update state j v
  | _ => state

def Act.mutexPlace : Act → Place MutexOp
  | .mutex op => .ahead op
  | _ => .through

def Act.semaphorePlace (k : Ph) : Act → Place SemaphoreOp
  | .semaphore k' op => if k' = k then .ahead op else .through
  | _ => .through

namespace Table

/-- Philosopher `i` runs a piece of its code. -/
def exec (t : Table) (i : Ph) (a : Act) (p : Pc) : Table :=
  { t with
    state := a.storeTo t.state,
    pc := Function.update t.pc i p,
    mp := Function.update t.mp i a.mutexPlace,
    sp := fun k => Function.update (t.sp k) i (a.semaphorePlace k) }

/-- The call of `f` on `s[k]` comes to `x`. -/
def setPlace (t : Table) (k f : Ph) (x : Place SemaphoreOp) : Table :=
  { t with sp := Function.update t.sp k (Function.update (t.sp k) f x) }

/-- A philosopher runs a piece of its code, or a section of the mutex or of a semaphore is run. -/
inductive Step : Table → Table → Prop
  | exec {t : Table} (i : Ph) {a : Act} {p : Pc}
      (h : Exec t.state (t.mp i = .through) (fun k => t.sp k i = .through) i (t.pc i) a p) :
      Step t (t.exec i a p)
  | lock {t : Table} (f : Ph) (h : t.mp f = .ahead .lock) (ho : t.owners = []) :
      Step t { t with owners := [f], mp := Function.update t.mp f .through }
  | block {t : Table} (f : Ph) (h : t.mp f = .ahead .lock) (ho : t.owners ≠ []) :
      Step t { t with mp := Function.update t.mp f (.queued .lock) }
  | unlock {t : Table} (f : Ph) (h : t.mp f = .ahead .unlock) :
      Step t { t with
        owners := t.owners.erase f, mp := Function.update t.mp f .through }
  | handOver {t : Table} (f g : Ph) (op : MutexOp) (h : t.mp f = .ahead .unlock)
      (hg : t.mp g = .queued op) :
      Step t { t with
        owners := g :: t.owners.erase f,
        mp := Function.update (Function.update t.mp g .through) f .through }
  | take {t : Table} (k f : Ph) (h : t.sp k f = .ahead .wait) (hc : 0 < t.count k) :
      Step t { t.setPlace k f .through with count := Function.update t.count k (t.count k - 1) }
  | sleep {t : Table} (k f : Ph) (h : t.sp k f = .ahead .wait) (hc : t.count k = 0) :
      Step t (t.setPlace k f (.queued .wait))
  | wake {t : Table} (k f g : Ph) (op : SemaphoreOp) (h : t.sp k f = .ahead .signal)
      (hg : t.sp k g = .queued op) : Step t ((t.setPlace k g .through).setPlace k f .through)
  | add {t : Table} (k f : Ph) (h : t.sp k f = .ahead .signal) (hc : t.count k < 1) :
      Step t { t.setPlace k f .through with count := Function.update t.count k (t.count k + 1) }
  | drop {t : Table} (k f : Ph) (h : t.sp k f = .ahead .signal) (hc : 1 ≤ t.count k) :
      Step t { t.setPlace k f .through with
        dropped := Function.update t.dropped k (t.dropped k + 1) }

end Table

/-! ## What holds of a philosopher -/

namespace Pc

/-- Its call on `m` is for what it is at. -/
def MutexPlace (x : Place MutexOp) : Pc → Prop
  | taking | putting => x = .ahead .lock ∨ x = .queued .lock ∨ x = .through
  | unlocking _ => x = .ahead .unlock ∨ x = .through
  | _ => x = .through

/-- The call of `i` on `s[k]` is for what it is at. -/
def SemaphorePlace (i k : Ph) (x : Place SemaphoreOp) : Pc → Prop
  | signalling w => x = .through ∨ w.arg i = k ∧ x = .ahead .signal
  | waiting => x = .through ∨ i = k ∧ (x = .ahead .wait ∨ x = .queued .wait)
  | _ => x = .through

/-- It owns the mutex. -/
def Owns (x : Place MutexOp) : Pc → Prop
  | taking | putting => x = .through
  | unlocking _ => x = .ahead .unlock
  | sleeping | think | wait | waiting | eating => False
  | _ => True

/-- What it has read in `state`. -/
def Knows (i : Ph) (state : Ph → PhState) : Pc → Prop
  | testLeft w => state (w.arg i) = .hungry
  | testRight w => state (w.arg i) = .hungry ∧ state (left (w.arg i)) ≠ .eating
  | eat w => state (w.arg i) = .hungry ∧ state (left (w.arg i)) ≠ .eating ∧
      state (right (w.arg i)) ≠ .eating
  | _ => True

/-- What `state` says of it, with its call on its own semaphore at `x`. -/
def Stands (x : Place SemaphoreOp) (v : PhState) : Pc → Prop
  | sleeping | think | taking => v = .thinking
  | test w | testLeft w | testRight w | eat w | signal w | signalling w | tested w
  | unlocking w => v = .thinking ↔ w ≠ .take
  | wait => v ≠ .thinking
  | waiting => v ≠ .thinking ∧ (x = .through → v = .eating)
  | eating | putting => v = .eating

/-- It has its forks. -/
def Fed (x : Place SemaphoreOp) : Pc → Prop
  | waiting => x = .through
  | eating | putting => True
  | _ => False

/-- `i` is about to signal `k`. -/
def Signals (i k : Ph) (x : Place SemaphoreOp) : Pc → Prop
  | signal w => w.arg i = k
  | signalling w => w.arg i = k ∧ x = .ahead .signal
  | _ => False

/-- `i` will test `k` before it unlocks the mutex. -/
def Pending (i k : Ph) : Pc → Prop
  | test w | testLeft w | testRight w | eat w => w.arg i = k ∨ w = .putLeft ∧ right i = k
  | signal w | signalling w | tested w => w = .putLeft ∧ right i = k
  | _ => False

end Pc

variable {state : Ph → PhState} {back : Prop} {backFrom : Ph → Prop} {i j k : Ph} {p p' : Pc}
  {a : Act} {x : Place MutexOp} {y : Ph → Place SemaphoreOp} {v : PhState}

theorem left_ne (i : Ph) : left i ≠ i := by
  revert i
  decide

theorem right_ne (i : Ph) : right i ≠ i := by
  revert i
  decide

@[simp] theorem left_right (i : Ph) : left (right i) = i := by
  revert i
  decide

@[simp] theorem right_left (i : Ph) : right (left i) = i := by
  revert i
  decide

namespace Pc

theorem MutexPlace.lock (h : p.MutexPlace (.ahead .lock)) : p = taking ∨ p = putting := by
  cases p <;> simp [MutexPlace] at h ⊢

theorem MutexPlace.queued {op : MutexOp} (h : p.MutexPlace (.queued op)) :
    op = .lock ∧ (p = taking ∨ p = putting) := by
  cases p <;> simp [MutexPlace] at h ⊢ <;> exact h

theorem MutexPlace.unlock (h : p.MutexPlace (.ahead .unlock)) : ∃ w, p = unlocking w := by
  cases p <;> simp [MutexPlace] at h ⊢

theorem SemaphorePlace.wait (h : p.SemaphorePlace i k (.ahead .wait)) : p = waiting ∧ i = k := by
  cases p <;> simp [SemaphorePlace] at h ⊢
  exact h

theorem SemaphorePlace.queued {op : SemaphoreOp} (h : p.SemaphorePlace i k (.queued op)) :
    p = waiting ∧ i = k := by
  cases p <;> simp [SemaphorePlace] at h ⊢
  exact h.1

theorem SemaphorePlace.signal (h : p.SemaphorePlace i k (.ahead .signal)) :
    ∃ w, p = signalling w ∧ w.arg i = k := by
  cases p <;> simp [SemaphorePlace] at h ⊢
  exact h

theorem SemaphorePlace.through : p.SemaphorePlace i k .through := by
  cases p <;> simp [SemaphorePlace]

/-- Only the owner of the mutex relies on what it has read. -/
theorem knows_of_not_owns (h : ¬ p.Owns x) : p.Knows i state := by
  cases p <;> simp [Owns, Knows] at h ⊢

theorem Signals.owns {z : Place SemaphoreOp} (h : p.Signals i k z) : p.Owns x := by
  cases p <;> simp [Signals, Owns] at h ⊢

/-- A hungry philosopher may be given its forks. -/
theorem Stands.eat {z : Place SemaphoreOp} (h : p.Stands z .hungry) : p.Stands z .eating := by
  cases p <;> simp [Stands] at h ⊢ <;> exact h

end Pc

/-! ## What a piece of code does -/

/-- The call that a philosopher was in, if any, has returned. -/
theorem Exec.through (h : Exec state (x = .through) (fun k => y k = .through) i p a p')
    (hm : p.MutexPlace x) (hs : ∀ k, p.SemaphorePlace i k (y k)) :
    x = .through ∧ ∀ k, y k = .through := by
  cases h with
  | hungry h => exact ⟨h, hs⟩
  | signalled w h =>
    refine ⟨hm, fun k => ?_⟩
    rcases hs k with hk | ⟨rfl, -⟩
    · exact hk
    · exact h
  | unlockedTake h => exact ⟨h, hs⟩
  | unlockedPut w hw h => exact ⟨h, hs⟩
  | fed h =>
    refine ⟨hm, fun k => ?_⟩
    rcases hs k with hk | ⟨rfl, -⟩
    · exact hk
    · exact h
  | thinking h => exact ⟨h, hs⟩
  | _ => exact ⟨hm, hs⟩

theorem Exec.mutexPlace (h : Exec state back backFrom i p a p') :
    p'.MutexPlace a.mutexPlace := by
  cases h with
  | test w => split <;> rfl
  | testLeft w => split <;> rfl
  | testRight w => split <;> rfl
  | _ => simp [Act.mutexPlace, Pc.MutexPlace]

theorem Exec.semaphorePlace (h : Exec state back backFrom i p a p') (k : Ph) :
    p'.SemaphorePlace i k (a.semaphorePlace k) := by
  cases h with
  | signal w =>
    by_cases hk : w.arg i = k <;> simp [Act.semaphorePlace, Pc.SemaphorePlace, hk]
  | wait => by_cases hk : i = k <;> simp [Act.semaphorePlace, Pc.SemaphorePlace, hk]
  | _ => exact .through

/-- A piece of code neither gets the mutex nor gives it away. -/
theorem Exec.owns (h : Exec state back backFrom i p a p') :
    p'.Owns a.mutexPlace ↔ p.Owns .through := by
  cases h with
  | test w => split <;> exact Iff.rfl
  | testLeft w => split <;> exact Iff.rfl
  | testRight w => split <;> exact Iff.rfl
  | _ => simp [Act.mutexPlace, Pc.Owns]

/-- **What is stored**: nothing, or one of the three stores, by the owner of the mutex. -/
theorem Exec.store (h : Exec state back backFrom i p a p') :
    (a.storeTo state = state ∧ (∀ w, p ≠ .eat w) ∧ p ≠ .putting) ∨
    (p = .taking ∧ a = .store i .hungry ∧ p' = .test .take) ∨
    (∃ w, p = .eat w ∧ a = .store (w.arg i) .eating ∧ p' = .signal w) ∨
    (p = .putting ∧ a = .store i .thinking ∧ p' = .test .putLeft) := by
  cases h with
  | hungry h => exact .inr (.inl ⟨rfl, rfl, rfl⟩)
  | eat w => exact .inr (.inr (.inl ⟨w, rfl, rfl, rfl⟩))
  | thinking h => exact .inr (.inr (.inr ⟨rfl, rfl, rfl⟩))
  | _ => exact .inl ⟨rfl, by simp, by simp⟩

theorem Exec.knows (h : Exec state back backFrom i p a p') (hk : p.Knows i state) :
    p'.Knows i (a.storeTo state) := by
  cases h with
  | test w =>
    split
    · next hs => exact hs
    · trivial
  | testLeft w =>
    split
    · next hs => exact ⟨hk, hs⟩
    · trivial
  | testRight w =>
    split
    · next hs => exact ⟨hk.1, hk.2, hs⟩
    · trivial
  | _ => trivial

/-- A philosopher stores in its own place only, or gives somebody else its forks. -/
theorem Exec.stands (h : Exec state back backFrom i p a p')
    (hs : p.Stands .through (state i)) :
    p'.Stands (a.semaphorePlace i) (a.storeTo state i) := by
  cases h with
  | test w => split <;> exact hs
  | testLeft w => split <;> exact hs
  | testRight w => split <;> exact hs
  | hungry h => simp [Act.storeTo, Pc.Stands]
  | eat w =>
    cases w with
    | take => simp [Act.storeTo, Pc.Stands, Test.arg]
    | putLeft => simpa [Act.storeTo, Pc.Stands, Test.arg, (left_ne i).symm] using hs
    | putRight => simpa [Act.storeTo, Pc.Stands, Test.arg, (right_ne i).symm] using hs
  | thinking h => simp [Act.storeTo, Pc.Stands]
  | unlockedTake h => simpa [Act.storeTo, Pc.Stands] using hs
  | unlockedPut w hw h => simpa [Act.storeTo, Pc.Stands, hw] using hs
  | wait => simpa [Act.storeTo, Pc.Stands, Act.semaphorePlace] using hs
  | fed h => exact hs.2 rfl
  | putRight => simpa [Act.storeTo, Pc.Stands] using hs
  | _ => exact hs

theorem Exec.signals (h : Exec state back backFrom i p a p') (k : Ph) :
    p'.Signals i k (a.semaphorePlace k) ↔
      p.Signals i k .through ∨ ∃ w, p = .eat w ∧ w.arg i = k := by
  cases h with
  | test w => split <;> simp [Pc.Signals]
  | testLeft w => split <;> simp [Pc.Signals]
  | testRight w => split <;> simp [Pc.Signals]
  | signal w => by_cases hk : w.arg i = k <;> simp [Pc.Signals, Act.semaphorePlace, hk]
  | _ => simp [Pc.Signals]

theorem Exec.fed_iff (h : Exec state back backFrom i p a p') :
    p'.Fed (a.semaphorePlace i) ↔ p.Fed .through ∧ p ≠ .putting := by
  cases h with
  | test w => split <;> simp [Pc.Fed]
  | testLeft w => split <;> simp [Pc.Fed]
  | testRight w => split <;> simp [Pc.Fed]
  | _ => simp [Pc.Fed, Act.semaphorePlace]

/-- Who was to be tested still is, or does not need it. -/
theorem Exec.pending (h : Exec state back backFrom i p a p') (he : ∀ w, p ≠ .eat w)
    (hp : p.Pending i k) : p'.Pending i k ∨ state k ≠ .hungry ∨ state (left k) = .eating ∨
      state (right k) = .eating := by
  cases h with
  | test w =>
    rcases hp with rfl | hp
    · split
      · exact .inl (.inl rfl)
      · next hs => exact .inr (.inl hs)
    · left
      split
      · exact .inr hp
      · exact hp
  | testLeft w =>
    rcases hp with rfl | hp
    · split
      · exact .inl (.inl rfl)
      · next hs => exact .inr (.inr (.inl (by simpa using hs)))
    · left
      split
      · exact .inr hp
      · exact hp
  | testRight w =>
    rcases hp with rfl | hp
    · split
      · exact .inl (.inl rfl)
      · next hs => exact .inr (.inr (.inr (by simpa using hs)))
    · left
      split
      · exact .inr hp
      · exact hp
  | eat w => exact absurd rfl (he w)
  | signal w => exact .inl hp
  | signalled w h => exact .inl hp
  | putRight => exact .inl (.inl hp.2)
  | unlock w hw => exact absurd hp.1 hw
  | _ => exact hp.elim

namespace Table

/-- Where the token of `k` is: there is none, unless `k` eats and has not got its forks; then it is
in the semaphore, or with the philosopher that is about to signal. -/
inductive Token (t : Table) (k : Ph) : Prop
  | none (hc : t.count k = 0) (hs : ∀ i, ¬ (t.pc i).Signals i k (t.sp k i))
      (he : t.state k = .eating → (t.pc k).Fed (t.sp k k))
  | stored (hc : t.count k = 1) (hs : ∀ i, ¬ (t.pc i).Signals i k (t.sp k i))
      (he : t.state k = .eating) (hf : ¬ (t.pc k).Fed (t.sp k k))
  | sent (hc : t.count k = 0) (i : Ph) (hs : (t.pc i).Signals i k (t.sp k i))
      (he : t.state k = .eating) (hf : ¬ (t.pc k).Fed (t.sp k k))

/-- **The invariant of the table.** -/
structure Inv (t : Table) : Prop where
  mp : ∀ i, (t.pc i).MutexPlace (t.mp i)
  sp : ∀ i k, (t.pc i).SemaphorePlace i k (t.sp k i)
  one : t.owners = [] ∨ ∃ f, t.owners = [f]
  owns : ∀ i, i ∈ t.owners ↔ (t.pc i).Owns (t.mp i)
  knows : ∀ i, (t.pc i).Knows i t.state
  stands : ∀ i, (t.pc i).Stands (t.sp i i) (t.state i)
  token : ∀ k, t.Token k
  apart : ∀ k, ¬ (t.state k = .eating ∧ t.state (right k) = .eating)
  fed : ∀ k, t.state k = .hungry → t.state (left k) = .eating ∨ t.state (right k) = .eating ∨
    ∃ i, (t.pc i).Pending i k
  dropped : ∀ k, t.dropped k = 0

variable {t t' : Table} {f g : Ph}

/-- The token of `k` stays where it is. -/
theorem Token.keep (h : t.Token k) (hc : t'.count k = t.count k)
    (hs : ∀ j, (t'.pc j).Signals j k (t'.sp k j) ↔ (t.pc j).Signals j k (t.sp k j))
    (hf : (t'.pc k).Fed (t'.sp k k) ↔ (t.pc k).Fed (t.sp k k))
    (he : t'.state k = .eating ↔ t.state k = .eating) : t'.Token k := by
  rcases h with ⟨h1, h2, h3⟩ | ⟨h1, h2, h3, h4⟩ | ⟨h1, j, h2, h3, h4⟩
  · exact .none (hc.trans h1) (fun j => by rw [hs]; exact h2 j) (by rw [he, hf]; exact h3)
  · exact .stored (hc.trans h1) (fun j => by rw [hs]; exact h2 j) (he.2 h3) (by rw [hf]; exact h4)
  · exact .sent (hc.trans h1) j ((hs j).2 h2) (he.2 h3) (by rw [hf]; exact h4)

theorem setPlace_apply (t : Table) (k f : Ph) (x : Place SemaphoreOp) (k' i : Ph) :
    (t.setPlace k f x).sp k' i = if k' = k ∧ i = f then x else t.sp k' i := by
  simp only [setPlace, Function.update_apply]
  by_cases hk : k' = k
  · subst hk
    by_cases hi : i = f <;> simp [hi]
  · simp [hk]

/-- The other tokens stay where they are. -/
theorem Token.other {count dropped : Ph → Nat} {sp : Ph → Ph → Place SemaphoreOp} {k' : Ph}
    (h : t.Token k') (hsp : ∀ i, sp k' i = t.sp k' i) (hc : count k' = t.count k') :
    Token { t with sp, count, dropped } k' := by
  refine h.keep hc (fun j => ?_) ?_ Iff.rfl
  · simp only [hsp]
  · simp only [hsp]

namespace Inv

/-- Only one philosopher owns the mutex. -/
theorem sole (h : t.Inv) (hi : (t.pc i).Owns (t.mp i)) (hj : (t.pc j).Owns (t.mp j)) : i = j := by
  rw [← h.owns] at hi hj
  rcases h.one with ho | ⟨f, ho⟩
  · rw [ho] at hi
    cases hi
  · rw [ho, List.mem_singleton] at hi hj
    rw [hi, hj]

/-- A philosopher that has its forks eats. -/
theorem eating_of_fed (h : t.Inv) (hf : (t.pc k).Fed (t.sp k k)) : t.state k = .eating := by
  have hs := h.stands k
  cases hp : t.pc k <;> simp only [hp, Pc.Fed, Pc.Stands] at hf hs
  · exact hs.2 hf
  · exact hs
  · exact hs

/-- What the owner has read before it gives somebody its forks. -/
theorem knows_eat (h : t.Inv) {w : Test} (hp : t.pc i = .eat w) :
    t.state (w.arg i) = .hungry ∧ t.state (left (w.arg i)) ≠ .eating ∧
      t.state (right (w.arg i)) ≠ .eating := by
  have hk := h.knows i
  rw [hp] at hk
  exact hk

/-! ## A piece of code -/

section
variable (h : t.Inv)
  (hx : Exec t.state (t.mp i = .through) (fun k => t.sp k i = .through) i (t.pc i) a p')
include h hx

theorem exec_through : t.mp i = .through ∧ ∀ k, t.sp k i = .through :=
  hx.through (h.mp i) (h.sp i)

theorem exec_mp (j : Ph) : ((t.exec i a p').pc j).MutexPlace ((t.exec i a p').mp j) := by
  by_cases hj : j = i
  · subst hj
    simp only [exec, Function.update_self]
    exact hx.mutexPlace
  · simp only [exec, Function.update_of_ne hj]
    exact h.mp j

theorem exec_sp (j k : Ph) :
    ((t.exec i a p').pc j).SemaphorePlace j k ((t.exec i a p').sp k j) := by
  by_cases hj : j = i
  · subst hj
    simp only [exec, Function.update_self]
    exact hx.semaphorePlace k
  · simp only [exec, Function.update_of_ne hj]
    exact h.sp j k

theorem exec_owns (j : Ph) :
    j ∈ (t.exec i a p').owners ↔ ((t.exec i a p').pc j).Owns ((t.exec i a p').mp j) := by
  by_cases hj : j = i
  · subst hj
    simp only [exec, Function.update_self]
    rw [hx.owns, h.owns, (h.exec_through hx).1]
  · simp only [exec, Function.update_of_ne hj]
    exact h.owns j

/-- Nobody else has read what the owner of the mutex stores. -/
theorem exec_knows (j : Ph) : ((t.exec i a p').pc j).Knows j (t.exec i a p').state := by
  by_cases hj : j = i
  · subst hj
    simp only [exec, Function.update_self]
    exact hx.knows (h.knows j)
  · simp only [exec, Function.update_of_ne hj]
    have hthrough := (h.exec_through hx).1
    have hother : (t.pc i).Owns (t.mp i) → (t.pc j).Knows j (a.storeTo t.state) := by
      intro hown
      apply Pc.knows_of_not_owns (x := t.mp j)
      intro hj'
      exact hj (h.sole hj' hown)
    rcases hx.store with ⟨hs, -⟩ | ⟨hp, -⟩ | ⟨w, hp, -⟩ | ⟨hp, -⟩
    · rw [hs]
      exact h.knows j
    · exact hother (by rw [hp]; exact hthrough)
    · exact hother (by rw [hp]; trivial)
    · exact hother (by rw [hp]; exact hthrough)

theorem exec_stands (j : Ph) :
    ((t.exec i a p').pc j).Stands ((t.exec i a p').sp j j) ((t.exec i a p').state j) := by
  by_cases hj : j = i
  · subst hj
    simp only [exec, Function.update_self]
    apply hx.stands
    have hs := h.stands j
    rwa [(h.exec_through hx).2 j] at hs
  · simp only [exec, Function.update_of_ne hj]
    have hs := h.stands j
    rcases hx.store with ⟨hst, -⟩ | ⟨-, ha, -⟩ | ⟨w, hp, ha, -⟩ | ⟨-, ha, -⟩
    · rw [hst]
      exact hs
    · rw [ha, Act.storeTo, Function.update_of_ne hj]
      exact hs
    · rw [ha, Act.storeTo]
      by_cases hw : j = w.arg i
      · -- it was hungry
        have hk : t.state (w.arg i) = .hungry := (h.knows_eat hp).1
        rw [← hw] at hk ⊢
        rw [Function.update_self]
        rw [hk] at hs
        exact hs.eat
      · rw [Function.update_of_ne hw]
        exact hs
    · rw [ha, Act.storeTo, Function.update_of_ne hj]
      exact hs

/-- The signals to come. -/
theorem exec_signals (j k : Ph) :
    ((t.exec i a p').pc j).Signals j k ((t.exec i a p').sp k j) ↔
      (t.pc j).Signals j k (t.sp k j) ∨ j = i ∧ ∃ w, t.pc i = .eat w ∧ w.arg i = k := by
  by_cases hj : j = i
  · subst hj
    simp only [exec, Function.update_self, true_and]
    rw [hx.signals, (h.exec_through hx).2 k]
  · simp only [exec, Function.update_of_ne hj, hj, false_and, or_false]

theorem exec_fed_iff (k : Ph) :
    ((t.exec i a p').pc k).Fed ((t.exec i a p').sp k k) ↔
      (t.pc k).Fed (t.sp k k) ∧ ¬ (k = i ∧ t.pc i = .putting) := by
  by_cases hk : k = i
  · subst hk
    simp only [exec, Function.update_self, true_and]
    rw [hx.fed_iff, (h.exec_through hx).2 k]
  · simp only [exec, Function.update_of_ne hk, hk, false_and, not_false_eq_true, and_true]

theorem exec_token (k : Ph) : (t.exec i a p').Token k := by
  have hsig := fun j => h.exec_signals hx j k
  have hfed := h.exec_fed_iff hx k
  rcases hx.store with ⟨hst, hne, hnp⟩ | ⟨hp, rfl, -⟩ | ⟨w, hp, rfl, -⟩ | ⟨hp, rfl, -⟩
  · -- nothing is stored
    refine (h.token k).keep rfl (fun j => ?_) ?_ (by rw [show (t.exec i a p').state = _ from hst])
    · rw [hsig]
      refine or_iff_left ?_
      rintro ⟨-, w, hw, -⟩
      exact hne w hw
    · rw [hfed]
      exact and_iff_left fun hw => hnp hw.2
  · -- `i` is hungry
    refine (h.token k).keep rfl (fun j => ?_) ?_ ?_
    · rw [hsig, hp]
      simp
    · rw [hfed, hp]
      simp
    · by_cases hk : k = i
      · have hs := h.stands i
        rw [hp] at hs
        simp [exec, Act.storeTo, hk, show t.state i = .thinking from hs]
      · simp [exec, Act.storeTo, hk]
  · -- somebody is given its forks
    obtain ⟨hh, -⟩ := h.knows_eat hp
    by_cases hk : k = w.arg i
    · subst hk
      have hnf : ¬ (t.pc (w.arg i)).Fed (t.sp (w.arg i) (w.arg i)) := by
        intro hf
        rw [h.eating_of_fed hf] at hh
        cases hh
      have hc : t.count (w.arg i) = 0 := by
        rcases h.token (w.arg i) with ⟨hc, -⟩ | ⟨-, -, he, -⟩ | ⟨hc, -⟩
        · exact hc
        · rw [hh] at he
          cases he
        · exact hc
      refine .sent hc i ?_ (Function.update_self ..) ?_
      · rw [hsig]
        exact .inr ⟨rfl, w, hp, rfl⟩
      · rw [hfed]
        exact fun hf => hnf hf.1
    · refine (h.token k).keep rfl (fun j => ?_) ?_ ?_
      · rw [hsig]
        refine or_iff_left ?_
        rintro ⟨-, w', hw', rfl⟩
        rw [hp] at hw'
        exact hk (by rw [Pc.eat.inj hw'])
      · rw [hfed, hp]
        simp
      · simp [exec, Act.storeTo, Function.update_of_ne hk]
  · -- `i` has put its forks down
    by_cases hk : k = i
    · subst hk
      have hf : (t.pc k).Fed (t.sp k k) := by
        rw [hp]
        trivial
      rcases h.token k with ⟨hc, hs, -⟩ | ⟨-, -, -, hnf⟩ | ⟨-, -, -, -, hnf⟩
      · refine .none hc (fun j => ?_) fun he => ?_
        · rw [hsig, hp]
          simpa using hs j
        · simp [exec, Act.storeTo] at he
      · exact absurd hf hnf
      · exact absurd hf hnf
    · refine (h.token k).keep rfl (fun j => ?_) ?_ ?_
      · rw [hsig, hp]
        simp
      · rw [hfed]
        exact and_iff_left fun hw => hk hw.1
      · simp [exec, Act.storeTo, Function.update_of_ne hk]

theorem exec_apart (k : Ph) :
    ¬ ((t.exec i a p').state k = .eating ∧ (t.exec i a p').state (right k) = .eating) := by
  have hk := h.apart k
  rcases hx.store with ⟨hst, -⟩ | ⟨hp, rfl, -⟩ | ⟨w, hp, rfl, -⟩ | ⟨hp, rfl, -⟩
  · rw [show (t.exec i a p').state = _ from hst]
    exact hk
  · simp only [exec, Act.storeTo, Function.update_apply]
    split <;> split <;> simp_all
  · obtain ⟨-, hl, hr⟩ := h.knows_eat hp
    simp only [exec, Act.storeTo, Function.update_apply]
    by_cases h1 : k = w.arg i
    · have h2 : right k ≠ w.arg i := by
        rw [← h1]
        exact right_ne k
      rw [if_neg h2, h1]
      exact fun he => hr he.2
    · by_cases h2 : right k = w.arg i
      · rw [if_neg h1]
        rw [← h2, left_right] at hl
        exact fun he => hl he.1
      · rw [if_neg h1, if_neg h2]
        exact hk
  · simp only [exec, Act.storeTo, Function.update_apply]
    split <;> split <;> simp_all

omit h in
/-- Who will be tested. -/
theorem exec_pending (hne : ∀ w, t.pc i ≠ .eat w) (hp : (t.pc j).Pending j k) :
    ((t.exec i a p').pc j).Pending j k ∨ t.state k ≠ .hungry ∨ t.state (left k) = .eating ∨
      t.state (right k) = .eating := by
  by_cases hj : j = i
  · subst hj
    simp only [exec, Function.update_self]
    exact hx.pending hne hp
  · simp only [exec, Function.update_of_ne hj]
    exact .inl hp

theorem exec_fed (k : Ph) (hk : (t.exec i a p').state k = .hungry) :
    (t.exec i a p').state (left k) = .eating ∨ (t.exec i a p').state (right k) = .eating ∨
      ∃ j, ((t.exec i a p').pc j).Pending j k := by
  rcases hx.store with ⟨hst, hne, -⟩ | ⟨hp, rfl, rfl⟩ | ⟨w, hp, rfl, rfl⟩ | ⟨hp, rfl, rfl⟩
  · rw [show (t.exec i a p').state = t.state from hst] at hk ⊢
    rcases h.fed k hk with hl | hr | ⟨j, hj⟩
    · exact .inl hl
    · exact .inr (.inl hr)
    · rcases exec_pending hx hne hj with hj' | hn | hl | hr
      · exact .inr (.inr ⟨j, hj'⟩)
      · exact absurd hk hn
      · exact .inl hl
      · exact .inr (.inl hr)
  · by_cases hki : k = i
    · refine .inr (.inr ⟨i, ?_⟩)
      simp only [exec, Function.update_self]
      exact .inl hki.symm
    · -- `i` was thinking, so that it is not the neighbour that eats
      have hs : t.state i = .thinking := by
        have hs := h.stands i
        rw [hp] at hs
        exact hs
      have hkeep : ∀ l, t.state l = .eating →
          (t.exec i (.store i .hungry) (.test .take)).state l = .eating := by
        intro l hl
        have hne : l ≠ i := by
          rintro rfl
          rw [hs] at hl
          cases hl
        simp only [exec, Act.storeTo, Function.update_of_ne hne, hl]
      simp only [exec, Act.storeTo, Function.update_of_ne hki] at hk
      rcases h.fed k hk with hl | hr | ⟨j, hj⟩
      · exact .inl (hkeep _ hl)
      · exact .inr (.inl (hkeep _ hr))
      · rcases exec_pending hx (by simp [hp]) hj with hj' | hn | hl | hr
        · exact .inr (.inr ⟨j, hj'⟩)
        · exact absurd hk hn
        · exact .inl (hkeep _ hl)
        · exact .inr (.inl (hkeep _ hr))
  · have hkeep : ∀ l, t.state l = .eating →
        (t.exec i (.store (w.arg i) .eating) (.signal w)).state l = .eating := by
      intro l hl
      simp only [exec, Act.storeTo, Function.update_apply]
      split
      · rfl
      · exact hl
    have hka : k ≠ w.arg i := by
      rintro rfl
      simp [exec, Act.storeTo] at hk
    simp only [exec, Act.storeTo, Function.update_of_ne hka] at hk
    rcases h.fed k hk with hl | hr | ⟨j, hj⟩
    · exact .inl (hkeep _ hl)
    · exact .inr (.inl (hkeep _ hr))
    · refine .inr (.inr ⟨j, ?_⟩)
      by_cases hji : j = i
      · subst hji
        simp only [exec, Function.update_self]
        rw [hp] at hj
        exact hj.resolve_left (Ne.symm hka)
      · simp only [exec, Function.update_of_ne hji]
        exact hj
  · -- the neighbours of `i` will be tested
    have hki : k ≠ i := by
      rintro rfl
      simp [exec, Act.storeTo] at hk
    simp only [exec, Act.storeTo, Function.update_of_ne hki] at hk
    have hself : ∀ l, (Test.putLeft.arg i = l ∨ right i = l) →
        ∃ j, ((t.exec i (.store i .thinking) (.test .putLeft)).pc j).Pending j l := by
      intro l hl
      refine ⟨i, ?_⟩
      simp only [exec, Function.update_self]
      exact hl.imp_right fun hl => ⟨rfl, hl⟩
    rcases h.fed k hk with hl | hr | ⟨j, hj⟩
    · by_cases he : left k = i
      · exact .inr (.inr (hself k (.inr (by rw [← he, right_left]))))
      · left
        simp only [exec, Act.storeTo, Function.update_of_ne he, hl]
    · by_cases he : right k = i
      · exact .inr (.inr (hself k (.inl (by rw [← he]; exact left_right k))))
      · right; left
        simp only [exec, Act.storeTo, Function.update_of_ne he, hr]
    · refine .inr (.inr ⟨j, ?_⟩)
      have hji : j ≠ i := by
        rintro rfl
        rw [hp] at hj
        exact hj
      simp only [exec, Function.update_of_ne hji]
      exact hj

theorem exec : (t.exec i a p').Inv where
  mp := h.exec_mp hx
  sp := h.exec_sp hx
  one := h.one
  owns := h.exec_owns hx
  knows := h.exec_knows hx
  stands := h.exec_stands hx
  token := h.exec_token hx
  apart := h.exec_apart hx
  fed := h.exec_fed hx
  dropped := h.dropped

end

/-! ## A section of the mutex -/

/-- A section of the mutex concerns its places and its owners only. -/
theorem mutex (h : t.Inv) {owners : List Ph} {mp : Ph → Place MutexOp}
    (hmp : ∀ i, (t.pc i).MutexPlace (mp i)) (hone : owners = [] ∨ ∃ f, owners = [f])
    (howns : ∀ i, i ∈ owners ↔ (t.pc i).Owns (mp i)) : Inv { t with owners, mp } where
  mp := hmp
  sp := h.sp
  one := hone
  owns := howns
  knows := h.knows
  stands := h.stands
  token k := (h.token k).keep rfl (fun _ => Iff.rfl) Iff.rfl Iff.rfl
  apart := h.apart
  fed := h.fed
  dropped := h.dropped

theorem lock (h : t.Inv) (hf : t.mp f = .ahead .lock) (ho : t.owners = []) :
    Inv { t with owners := [f], mp := Function.update t.mp f .through } := by
  have hp := h.mp f
  rw [hf] at hp
  refine h.mutex (fun i => ?_) (.inr ⟨f, rfl⟩) fun i => ?_
  · by_cases hi : i = f
    · subst hi
      rw [Function.update_self]
      rcases hp.lock with hp | hp <;> simp [hp, Pc.MutexPlace]
    · rw [Function.update_of_ne hi]
      exact h.mp i
  · by_cases hi : i = f
    · subst hi
      rw [Function.update_self]
      rcases hp.lock with hp | hp <;> simp [hp, Pc.Owns]
    · rw [Function.update_of_ne hi, ← h.owns, ho]
      simp [hi]

theorem block (h : t.Inv) (hf : t.mp f = .ahead .lock) :
    Inv { t with mp := Function.update t.mp f (.queued .lock) } := by
  have hp := h.mp f
  rw [hf] at hp
  refine h.mutex (fun i => ?_) h.one fun i => ?_
  · by_cases hi : i = f
    · subst hi
      rw [Function.update_self]
      rcases hp.lock with hp | hp <;> simp [hp, Pc.MutexPlace]
    · rw [Function.update_of_ne hi]
      exact h.mp i
  · rw [h.owns]
    by_cases hi : i = f
    · subst hi
      rw [Function.update_self, hf]
      rcases hp.lock with hp | hp <;> simp [hp, Pc.Owns]
    · rw [Function.update_of_ne hi]

/-- Who unlocks is the owner. -/
theorem unlocking (h : t.Inv) (hf : t.mp f = .ahead .unlock) :
    (∃ w, t.pc f = .unlocking w) ∧ t.owners = [f] := by
  have hp := h.mp f
  rw [hf] at hp
  obtain ⟨w, hw⟩ := hp.unlock
  refine ⟨⟨w, hw⟩, ?_⟩
  have hown : f ∈ t.owners := by
    rw [h.owns, hw]
    exact hf
  rcases h.one with ho | ⟨g, ho⟩
  · rw [ho] at hown
    cases hown
  · rw [ho, List.mem_singleton] at hown
    rw [ho, hown]

theorem unlock (h : t.Inv) (hf : t.mp f = .ahead .unlock) :
    Inv { t with owners := t.owners.erase f, mp := Function.update t.mp f .through } := by
  obtain ⟨⟨w, hw⟩, ho⟩ := h.unlocking hf
  refine h.mutex (fun i => ?_) (.inl (by simp [ho])) fun i => ?_
  · by_cases hi : i = f
    · subst hi
      rw [Function.update_self, hw]
      exact .inr rfl
    · rw [Function.update_of_ne hi]
      exact h.mp i
  · by_cases hi : i = f
    · subst hi
      rw [Function.update_self, hw, ho]
      simp [Pc.Owns]
    · rw [Function.update_of_ne hi, ← h.owns, ho]
      simp [hi]

theorem handOver (h : t.Inv) {op : MutexOp} (hf : t.mp f = .ahead .unlock)
    (hg : t.mp g = .queued op) :
    Inv { t with
      owners := g :: t.owners.erase f,
      mp := Function.update (Function.update t.mp g .through) f .through } := by
  obtain ⟨⟨w, hw⟩, ho⟩ := h.unlocking hf
  have hp := h.mp g
  rw [hg] at hp
  have hgf : g ≠ f := by
    rintro rfl
    rw [hg] at hf
    cases hf
  refine h.mutex (fun i => ?_) (.inr ⟨g, by simp [ho]⟩) fun i => ?_
  · by_cases hi : i = f
    · subst hi
      rw [Function.update_self, hw]
      exact .inr rfl
    rw [Function.update_of_ne hi]
    by_cases hig : i = g
    · subst hig
      rw [Function.update_self]
      rcases hp.queued.2 with hp | hp <;> simp [hp, Pc.MutexPlace]
    · rw [Function.update_of_ne hig]
      exact h.mp i
  · by_cases hi : i = f
    · subst hi
      rw [Function.update_self, hw, ho]
      simp [Pc.Owns, Ne.symm hgf]
    rw [Function.update_of_ne hi]
    by_cases hig : i = g
    · subst hig
      rw [Function.update_self]
      rcases hp.queued.2 with hp | hp <;> simp [hp, Pc.Owns]
    · rw [Function.update_of_ne hig, ← h.owns, ho]
      simp [hi, hig]

/-! ## A section of a semaphore -/

/-- A section of a semaphore concerns its places, its count and the signals dropped only. -/
theorem semaphore (h : t.Inv) {sp : Ph → Ph → Place SemaphoreOp} {count dropped : Ph → Nat}
    (hsp : ∀ i k, (t.pc i).SemaphorePlace i k (sp k i))
    (hstands : ∀ i, (t.pc i).Stands (sp i i) (t.state i))
    (htoken : ∀ k, Token { t with sp, count, dropped } k) (hdropped : ∀ k, dropped k = 0) :
    Inv { t with sp, count, dropped } where
  mp := h.mp
  sp := hsp
  one := h.one
  owns := h.owns
  knows := h.knows
  stands := hstands
  token := htoken
  apart := h.apart
  fed := h.fed
  dropped := hdropped

/-- A philosopher that signals is the only one, and the token is with it. -/
theorem signalling (h : t.Inv) (hf : t.sp k f = .ahead .signal) :
    (∃ w, t.pc f = .signalling w ∧ w.arg f = k) ∧ t.count k = 0 ∧ t.state k = .eating ∧
      ¬ (t.pc k).Fed (t.sp k k) ∧ ∀ j, (t.pc j).Signals j k (t.sp k j) → j = f := by
  have hp := h.sp f k
  rw [hf] at hp
  obtain ⟨w, hw, hk⟩ := hp.signal
  have hs : (t.pc f).Signals f k (t.sp k f) := by
    rw [hw]
    exact ⟨hk, hf⟩
  refine ⟨⟨w, hw, hk⟩, ?_⟩
  rcases h.token k with ⟨-, hn, -⟩ | ⟨-, hn, -⟩ | ⟨hc, -, -, he, hnf⟩
  · exact absurd hs (hn f)
  · exact absurd hs (hn f)
  · exact ⟨hc, he, hnf, fun j hj => h.sole hj.owns hs.owns⟩

theorem take (h : t.Inv) (hf : t.sp k f = .ahead .wait) (hc : 0 < t.count k) :
    Inv { t.setPlace k f .through with count := Function.update t.count k (t.count k - 1) } := by
  have hp := h.sp f k
  rw [hf] at hp
  obtain ⟨hw, rfl⟩ := hp.wait
  obtain ⟨hc1, hs, he⟩ : t.count f = 1 ∧ (∀ i, ¬ (t.pc i).Signals i f (t.sp f i)) ∧
      t.state f = .eating := by
    rcases h.token f with ⟨hz, -⟩ | ⟨h1, h2, h3, -⟩ | ⟨hz, -⟩
    · omega
    · exact ⟨h1, h2, h3⟩
    · omega
  refine h.semaphore (fun i k => ?_) (fun i => ?_) (fun k => ?_) h.dropped
  · rw [setPlace_apply]
    split
    · exact .through
    · exact h.sp i k
  · rw [setPlace_apply]
    split
    · next hi =>
      rw [hi.1, hw, he]
      exact ⟨by simp, fun _ => rfl⟩
    · exact h.stands i
  · by_cases hk : k = f
    · subst hk
      refine .none (by simp [hc1]) (fun i => ?_) fun _ => ?_
      · by_cases hi : i = k
        · subst hi
          simp [hw, Pc.Signals]
        · have := hs i
          simpa [setPlace, hi] using this
      · simp [setPlace, hw, Pc.Fed]
    · refine (h.token k).other (fun i => ?_) (Function.update_of_ne hk _ _)
      rw [setPlace_apply, if_neg fun hi => hk hi.1]

theorem sleep (h : t.Inv) (hf : t.sp k f = .ahead .wait) :
    Inv (t.setPlace k f (.queued .wait)) := by
  have hp := h.sp f k
  rw [hf] at hp
  obtain ⟨hw, rfl⟩ := hp.wait
  have hs := h.stands f
  rw [hw] at hs
  refine h.semaphore (fun i k => ?_) (fun i => ?_) (fun k => ?_) h.dropped
  · show (t.pc i).SemaphorePlace i k ((t.setPlace f f _).sp k i)
    rw [setPlace_apply]
    split
    · next hi =>
      rw [hi.1, hi.2, hw]
      exact .inr ⟨rfl, .inr rfl⟩
    · exact h.sp i k
  · show (t.pc i).Stands ((t.setPlace f f _).sp i i) (t.state i)
    rw [setPlace_apply]
    split
    · next hi =>
      rw [hi.1, hw]
      exact ⟨hs.1, by simp⟩
    · exact h.stands i
  · refine (h.token k).keep rfl (fun i => ?_) ?_ Iff.rfl
    · show (t.pc i).Signals i k ((t.setPlace f f _).sp k i) ↔ _
      rw [setPlace_apply]
      split
      · next hi =>
        rw [hi.2, hw]
        exact Iff.rfl
      · exact Iff.rfl
    · show (t.pc k).Fed ((t.setPlace f f _).sp k k) ↔ _
      rw [setPlace_apply]
      split
      · next hi =>
        rw [hi.1, hw, hf]
        simp [Pc.Fed]
      · exact Iff.rfl

theorem wake (h : t.Inv) {op : SemaphoreOp} (hf : t.sp k f = .ahead .signal)
    (hg : t.sp k g = .queued op) : Inv ((t.setPlace k g .through).setPlace k f .through) := by
  obtain ⟨⟨w, hw, hk⟩, hc, he, hnf, hsole⟩ := h.signalling hf
  have hp := h.sp g k
  rw [hg] at hp
  obtain ⟨hgw, rfl⟩ := hp.queued
  have hfg : f ≠ g := by
    rintro rfl
    rw [hw] at hgw
    cases hgw
  have hsp : ∀ k i, ((t.setPlace g g .through).setPlace g f .through).sp k i =
      if k = g ∧ (i = f ∨ i = g) then .through else t.sp k i := by
    intro k i
    rw [setPlace_apply, setPlace_apply]
    by_cases h1 : k = g <;> by_cases h2 : i = f <;> simp [h1, h2]
  refine h.semaphore (fun i k => ?_) (fun i => ?_) (fun k => ?_) h.dropped
  · show (t.pc i).SemaphorePlace i k (((t.setPlace g g _).setPlace g f _).sp k i)
    rw [hsp]
    split
    · exact .through
    · exact h.sp i k
  · show (t.pc i).Stands (((t.setPlace g g _).setPlace g f _).sp i i) (t.state i)
    rw [hsp]
    split
    · next hi =>
      rw [hi.1, hgw, he]
      exact ⟨by simp, fun _ => rfl⟩
    · exact h.stands i
  · by_cases hkg : k = g
    · subst hkg
      refine .none hc (fun i => ?_) fun _ => ?_
      · show ¬ (t.pc i).Signals i k (((t.setPlace k k _).setPlace k f _).sp k i)
        rw [hsp]
        by_cases hi : i = f
        · rw [if_pos ⟨rfl, .inl hi⟩, hi, hw]
          simp [Pc.Signals]
        by_cases hik : i = k
        · rw [hik, hgw]
          exact id
        · rw [if_neg fun hh => hh.2.elim hi hik]
          exact fun hs => hi (hsole i hs)
      · show (t.pc k).Fed (((t.setPlace k k _).setPlace k f _).sp k k)
        rw [hsp, if_pos ⟨rfl, .inr rfl⟩, hgw]
        rfl
    · refine (h.token k).other (fun i => ?_) rfl
      show ((t.setPlace g g _).setPlace g f _).sp k i = t.sp k i
      rw [hsp, if_neg fun hh => hkg hh.1]

theorem add (h : t.Inv) (hf : t.sp k f = .ahead .signal) :
    Inv { t.setPlace k f .through with count := Function.update t.count k (t.count k + 1) } := by
  obtain ⟨⟨w, hw, hk⟩, hc, he, hnf, hsole⟩ := h.signalling hf
  have hfed : (t.pc k).Fed ((t.setPlace k f .through).sp k k) ↔ (t.pc k).Fed (t.sp k k) := by
    rw [setPlace_apply]
    split
    · next hi =>
      rw [hi.2, hw]
      exact Iff.rfl
    · exact Iff.rfl
  refine h.semaphore (fun i k => ?_) (fun i => ?_) (fun k' => ?_) h.dropped
  · rw [setPlace_apply]
    split
    · exact .through
    · exact h.sp i k
  · have hs := h.stands i
    rw [setPlace_apply]
    split
    · next hi =>
      rw [hi.2, hw] at hs ⊢
      exact hs
    · exact hs
  · by_cases hkk : k' = k
    · subst hkk
      refine .stored (by simp [hc]) (fun i => ?_) he ?_
      · show ¬ (t.pc i).Signals i k' ((t.setPlace k' f .through).sp k' i)
        rw [setPlace_apply]
        split
        · next hi =>
          rw [hi.2, hw]
          simp [Pc.Signals]
        · next hi => exact fun hs => hi ⟨rfl, hsole i hs⟩
      · exact fun hF => hnf (hfed.1 hF)
    · refine (h.token k').other (fun i => ?_) (Function.update_of_ne hkk _ _)
      rw [setPlace_apply, if_neg fun hi => hkk hi.1]

/-- **No step takes the invariant away.** -/
theorem step (h : t.Inv) (hs : Table.Step t t') : t'.Inv := by
  cases hs with
  | exec i hx => exact h.exec hx
  | lock f hf ho => exact h.lock hf ho
  | block f hf ho => exact h.block hf
  | unlock f hf => exact h.unlock hf
  | handOver f g op hf hg => exact h.handOver hf hg
  | take k f hf hc => exact h.take hf hc
  | sleep k f hf hc => exact h.sleep hf
  | wake k f g op hf hg => exact h.wake hf hg
  | add k f hf hc => exact h.add hf
  | drop k f hf hc =>
    -- the token is on its way, so that there is none in the semaphore
    have := (h.signalling hf).2.1
    omega

end Inv

end Table

end Demo.DiningPhilosopher
