import FjxFiber.Lib.NodeQueue

/-!
# Queue spinlocks (`src/qspinlock.c`, `src/mcs-lock.c`)

`fjx_qspinlock` is a flag and a queue lock in one `fjx_mcslock`: `next` is the tail of the queue of
those that wait, `locked` says that the lock is taken. `fjx_qspinlock_lock` takes the queue lock
with a node on its stack, waits for the flag and sets it, and releases the queue lock before it
returns.

`code` is `fjx_qspinlock_lock`, with the calls of `fjx_mcslock_lock` and `fjx_mcslock_unlock` in
place, and `fjx_qspinlock_unlock`, one access at a time.
-/

set_option autoImplicit false

namespace Spin

open Lib Lib.StackNodes

/-- `struct fjx_mcslock__`. -/
structure Mcslock (ι A : Type*) where
  next : Ptr ι A
  locked : Int
  deriving DecidableEq, Repr

namespace Qspinlock

variable {ι A : Type*}

/-- `FJX_QSPINLOCK_INIT`. -/
def init : Mcslock ι A := { next := .null, locked := 0 }

/-- Where a thread stands: each constructor is the next access. -/
inductive Pc (ι A : Type*)
  | out
  /-- `fjx_mcslock mm = FJX_MCS_LOCK_INIT` -/
  | initNext (mm : Ref ι A)
  | initLocked (mm : Ref ι A)
  /-- `prev = atomic_exchange_explicit(lock, node, ..)` in `fjx_mcslock_lock` -/
  | exchange (mm : Ref ι A)
  /-- `release_store(prev->next, node)` -/
  | link (mm : Ref ι A) (prev : Ptr ι A)
  /-- `await_until2(acquire_load(node->locked) != 0, ..)` -/
  | awaitNode (mm : Ref ι A)
  /-- `await_until2(acquire_load(lock->locked) == 0, ..)` -/
  | awaitLock (mm : Ref ι A)
  /-- `relaxed_store(lock->locked, 1)` -/
  | setLocked (mm : Ref ι A)
  /-- `next = acquire_load(node->next)` in `fjx_mcslock_unlock` -/
  | loadNext (mm : Ref ι A)
  /-- `atomic_compare_exchange_strong_explicit(lock, &tmp, NULL, ..)` -/
  | compareExchange (mm : Ref ι A)
  /-- `await_until((next = relaxed_load(node->next)) != NULL)` -/
  | awaitNext (mm : Ref ι A)
  /-- `release_store(next->locked, 1)` -/
  | pass (mm : Ref ι A) (next : Ptr ι A)
  /-- Back from `fjx_qspinlock_lock`. `release_store(lock->locked, 0)` is the only access of
  `fjx_qspinlock_unlock`. -/
  | held
  deriving DecidableEq, Repr

namespace Pc

/-- The call of `fjx_qspinlock_lock` that the thread is in. -/
def node : Pc ι A → Option (Ref ι A)
  | initNext mm | initLocked mm | exchange mm | link mm _ | awaitNode mm | awaitLock mm
  | setLocked mm | loadNext mm | compareExchange mm | awaitNext mm | pass mm _ => some mm
  | out | held => none

/-- Between the return from `fjx_mcslock_lock` and the last access of `fjx_mcslock_unlock`. -/
def HoldsQueue : Pc ι A → Prop
  | awaitLock _ | setLocked _ | loadNext _ | compareExchange _ | awaitNext _ | pass _ _ => True
  | _ => False

/-- Between the store of `lock->locked` in `fjx_qspinlock_lock` and that in
`fjx_qspinlock_unlock`. -/
def Holds : Pc ι A → Prop
  | loadNext _ | compareExchange _ | awaitNext _ | pass _ _ | held => True
  | _ => False

end Pc

variable [DecidableEq ι] [DecidableEq A]

/-- `fjx_qspinlock_lock`, up to `held`, and `fjx_qspinlock_unlock`. -/
def code : Pc ι A → Option (Access ι A (Mcslock ι A) (Pc ι A))
  | .out => none
  | .initNext mm => some ⟨.node mm, fun n => ({ n with next := .null }, .initLocked mm)⟩
  | .initLocked mm => some ⟨.node mm, fun n => ({ n with locked := 0 }, .exchange mm)⟩
  | .exchange mm => some ⟨.lock, fun l =>
      ({ l with next := .node mm }, if l.next = .null then .awaitLock mm else .link mm l.next)⟩
  | .link mm prev => some ⟨prev, fun n => ({ n with next := .node mm }, .awaitNode mm)⟩
  | .awaitNode mm => some ⟨.node mm, fun n =>
      (n, if n.locked ≠ 0 then .awaitLock mm else .awaitNode mm)⟩
  | .awaitLock mm => some ⟨.lock, fun l =>
      (l, if l.locked = 0 then .setLocked mm else .awaitLock mm)⟩
  | .setLocked mm => some ⟨.lock, fun l => ({ l with locked := 1 }, .loadNext mm)⟩
  | .loadNext mm => some ⟨.node mm, fun n =>
      (n, if n.next = .null then .compareExchange mm else .pass mm n.next)⟩
  | .compareExchange mm => some ⟨.lock, fun l =>
      if l.next.same (.node mm) then ({ l with next := .null }, .held) else (l, .awaitNext mm)⟩
  | .awaitNext mm => some ⟨.node mm, fun n =>
      (n, if n.next = .null then .awaitNext mm else .pass mm n.next)⟩
  | .pass _ next => some ⟨next, fun n => ({ n with locked := 1 }, .held)⟩
  | .held => some ⟨.lock, fun l => ({ l with locked := 0 }, .out)⟩

/-- Threads that call `fjx_qspinlock_lock` and `fjx_qspinlock_unlock` in turn. -/
def qspinlock : Program ι A (Mcslock ι A) (Pc ι A) where
  out := .out
  enter := .initNext
  code := code
  node := Pc.node
  exchanges
    | .exchange _ => true
    | _ => false
  enters
    | .setLocked _ => true
    | _ => false

abbrev State (ι A : Type*) := StackNodes.State ι A (Mcslock ι A) (Pc ι A)

/-- The states reached from `FJX_QSPINLOCK_INIT`, whatever is on the stacks. -/
abbrev Reached : State ι A → Prop :=
  Reachable (fun s => ∃ mem, s = qspinlock.start init mem) qspinlock.Step

theorem lawful : (qspinlock : Program ι A (Mcslock ι A) (Pc ι A)).Lawful where
  out := rfl
  enter _ := rfl
  keep p x hx n := by
    cases p <;> simp only [qspinlock, code, Option.some.injEq, reduceCtorEq] at hx <;> subst hx
    all_goals
      dsimp only [qspinlock]
      try split
      all_goals simp [Pc.node]

end Qspinlock

end Spin
