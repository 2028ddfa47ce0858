import FjxFiber.Lib.LinkedQueue
import FjxFiber.Lib.StackNodes

/-!
# Queue locks without a node argument (`src/mcsh-lock.c`)

`fjx_mcshlock` is a queue lock whose nodes lie on the stacks of the callers of
`fjx_mcshlock_lock`. A node has the type of the lock itself. `tail` is the last node of the queue in
the lock, and in a node the one behind it, or the lock as long as there is none; `msg` is what a
caller waits for in its node, and in the lock who comes after the holder: a node, or the lock where
nobody has to be told.

`code` is `fjx_mcshlock_lock` and `fjx_mcshlock_unlock`, one access at a time.
-/

set_option autoImplicit false

namespace Spin

open Lib Lib.StackNodes

/-- `struct fjx_mcshlock__`. -/
structure Mcshlock (ι A : Type*) where
  tail : Ptr ι A
  msg : Ptr ι A
  deriving DecidableEq, Repr

namespace Mcshlock

variable {ι A : Type*}

/-- `FJX_MCSH_LOCK_INIT`. -/
def init : Mcshlock ι A := { tail := .null, msg := .null }

/-- Where a thread stands: each constructor is the next access. -/
inductive Pc (ι A : Type*)
  | out
  /-- `fjx_mcshlock mm = {lock, lock}` -/
  | initTail (mm : Ref ι A)
  | initMsg (mm : Ref ι A)
  /-- `prev = atomic_exchange_explicit(&lock->tail, &mm, ..)` -/
  | exchange (mm : Ref ι A)
  /-- `await_until(lock->msg == NULL)` -/
  | awaitLock (mm : Ref ι A)
  /-- `lock->msg = lock` -/
  | setMsg (mm : Ref ι A)
  /-- `atomic_store_explicit(&prev->tail, &mm, ..)` -/
  | link (mm : Ref ι A) (prev : Ptr ι A)
  /-- `await_until(no_opt(mm.msg) == NULL)` -/
  | awaitMsg (mm : Ref ι A)
  /-- `succ = atomic_load_explicit(&mm.tail, ..)` -/
  | loadTail (mm : Ref ι A)
  /-- `atomic_compare_exchange_strong_explicit(&lock->tail, &tmp, NULL, ..)` -/
  | compareExchange (mm : Ref ι A)
  /-- `await_until((succ = atomic_load_explicit(&mm.tail, ..)) != lock)` -/
  | awaitTail (mm : Ref ι A)
  /-- `lock->msg = succ` -/
  | storeMsg (mm : Ref ι A) (succ : Ptr ι A)
  /-- The lock is held. `succ = lock->msg` is the first access of `fjx_mcshlock_unlock`. -/
  | held
  /-- `succ->msg = NULL` -/
  | clearMsg (succ : Ptr ι A)
  deriving DecidableEq, Repr

namespace Pc

/-- The call of `fjx_mcshlock_lock` that the thread is in. -/
def node : Pc ι A → Option (Ref ι A)
  | initTail mm | initMsg mm | exchange mm | awaitLock mm | setMsg mm | link mm _ | awaitMsg mm
  | loadTail mm | compareExchange mm | awaitTail mm | storeMsg mm _ => some mm
  | out | held | clearMsg _ => none

/-- Between the return from `fjx_mcshlock_lock` and the store of `fjx_mcshlock_unlock`. -/
def Holds : Pc ι A → Prop
  | held | clearMsg _ => True
  | _ => False

end Pc

variable [DecidableEq ι] [DecidableEq A]

/-- `fjx_mcshlock_lock`, up to `held`, and `fjx_mcshlock_unlock`. -/
def code : Pc ι A → Option (Access ι A (Mcshlock ι A) (Pc ι A))
  | .out => none
  | .initTail mm => some ⟨.node mm, fun n => ({ n with tail := .lock }, .initMsg mm)⟩
  | .initMsg mm => some ⟨.node mm, fun n => ({ n with msg := .lock }, .exchange mm)⟩
  | .exchange mm => some ⟨.lock, fun l =>
      ({ l with tail := .node mm }, if l.tail = .null then .awaitLock mm else .link mm l.tail)⟩
  | .awaitLock mm => some ⟨.lock, fun l =>
      (l, if l.msg = .null then .setMsg mm else .awaitLock mm)⟩
  | .setMsg mm => some ⟨.lock, fun l => ({ l with msg := .lock }, .loadTail mm)⟩
  | .link mm prev => some ⟨prev, fun n => ({ n with tail := .node mm }, .awaitMsg mm)⟩
  | .awaitMsg mm => some ⟨.node mm, fun n =>
      (n, if n.msg = .null then .loadTail mm else .awaitMsg mm)⟩
  | .loadTail mm => some ⟨.node mm, fun n =>
      (n, if n.tail = .lock then .compareExchange mm else .storeMsg mm n.tail)⟩
  | .compareExchange mm => some ⟨.lock, fun l =>
      if l.tail.same (.node mm) then ({ l with tail := .null }, .storeMsg mm .lock)
      else (l, .awaitTail mm)⟩
  | .awaitTail mm => some ⟨.node mm, fun n =>
      (n, if n.tail = .lock then .awaitTail mm else .storeMsg mm n.tail)⟩
  | .storeMsg _ succ => some ⟨.lock, fun l => ({ l with msg := succ }, .held)⟩
  | .held => some ⟨.lock, fun l => (l, .clearMsg l.msg)⟩
  | .clearMsg succ => some ⟨succ, fun n => ({ n with msg := .null }, .out)⟩

/-- Threads that call `fjx_mcshlock_lock` and `fjx_mcshlock_unlock` in turn. -/
def mcshlock : Program ι A (Mcshlock ι A) (Pc ι A) where
  out := .out
  enter := .initTail
  code := code
  node := Pc.node
  exchanges
    | .exchange _ => true
    | _ => false
  enters
    | .storeMsg _ _ => true
    | _ => false

abbrev State (ι A : Type*) := StackNodes.State ι A (Mcshlock ι A) (Pc ι A)

/-- The states reached from `FJX_MCSH_LOCK_INIT`, whatever is on the stacks. -/
abbrev Reached : State ι A → Prop :=
  Reachable (fun s => ∃ mem, s = mcshlock.start init mem) mcshlock.Step

theorem lawful : (mcshlock : Program ι A (Mcshlock ι A) (Pc ι A)).Lawful where
  out := rfl
  enter _ := rfl
  keep p x hx n := by
    cases p <;> simp only [mcshlock, code, Option.some.injEq, reduceCtorEq] at hx <;> subst hx
    all_goals
      dsimp only [mcshlock]
      try split
      all_goals simp [Pc.node]

end Mcshlock

end Spin
