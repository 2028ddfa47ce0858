import FjxFiber.Lib.MonitorClient
import FjxFiber.Sync.Mutex
import FjxFiber.Sync.Semaphore

/-!
# The dining philosophers (`demo/dining-philosopher.c`)

Five fibers, a fiber mutex that guards `state`, and for each philosopher a fiber semaphore of bound
1 on which it waits for its forks. `Exec` is the code of a philosopher, one access at a time, and
`EnderExec` that of `main` and of `g`, which between them end the program. `Step` runs them on the
mutex and the semaphores of `src/mutex.c` and `src/semaphore.c`, whose calls go on in pieces between
the accesses. A `fiber_sleep` may end at any time after it has begun (`Timer.Sleep` says when it
does), and the return of `main` ends the process.
-/

set_option autoImplicit false

namespace Demo.DiningPhilosopher

open Lib Lib.Monitor Sync

/-- The philosophers. -/
abbrev Ph := Fin 5

/-- `(i + 4) % 5` -/
def left (i : Ph) : Ph := i + 4

/-- `(i + 1) % 5` -/
def right (i : Ph) : Ph := i + 1

inductive PhState
  | thinking
  | hungry
  | eating
  deriving DecidableEq, Repr

/-- The calls of `test`: in `take_forks`, and the two in `put_forks`. -/
inductive Test
  | take
  | putLeft
  | putRight
  deriving DecidableEq, Repr

/-- The argument of `test` in the code of `i`. -/
def Test.arg (i : Ph) : Test → Ph
  | take => i
  | putLeft => left i
  | putRight => right i

/-- Where a philosopher is: each constructor is the next access, or the call that it is in. -/
inductive Pc
  /-- In the `fiber_sleep` at the end of the loop. -/
  | sleeping
  /-- The head of the loop, before the `fiber_mutex_lock` of `take_forks`. -/
  | think
  /-- In `fiber_mutex_lock`, before `state[i] = HUNGRY`. -/
  | taking
  /-- `state[i] == HUNGRY`, in `test`. -/
  | test (w : Test)
  /-- `state[left(i)] != EATING` -/
  | testLeft (w : Test)
  /-- `state[right(i)] != EATING` -/
  | testRight (w : Test)
  /-- `state[i] = EATING` -/
  | eat (w : Test)
  /-- `fiber_semaphore_signal(s[i])` -/
  | signal (w : Test)
  | signalling (w : Test)
  /-- After `test`. -/
  | tested (w : Test)
  /-- In `fiber_mutex_unlock`. -/
  | unlocking (w : Test)
  /-- `fiber_semaphore_wait(s[i])` -/
  | wait
  | waiting
  /-- Before the `fiber_mutex_lock` of `put_forks`. -/
  | eating
  /-- In `fiber_mutex_lock`, before `state[i] = THINKING`. -/
  | putting
  deriving DecidableEq, Repr

/-- What a piece of code does. -/
inductive Act
  | none
  | store (j : Ph) (v : PhState)
  /-- A call on `m`. -/
  | mutex (op : MutexOp)
  /-- A call on `s[k]`. -/
  | semaphore (k : Ph) (op : SemaphoreOp)

/-- **The code of philosopher `i`**: `f`, with `take_forks`, `put_forks` and `test`. `back` and
`backFrom k` say that its call on `m` and on `s[k]` has returned. -/
inductive Exec (state : Ph → PhState) (back : Prop) (backFrom : Ph → Prop) (i : Ph) :
    Pc → Act → Pc → Prop
  | awake : Exec state back backFrom i .sleeping .none .think
  | lockTake : Exec state back backFrom i .think (.mutex .lock) .taking
  | hungry (h : back) : Exec state back backFrom i .taking (.store i .hungry) (.test .take)
  | test (w : Test) : Exec state back backFrom i (.test w) .none
      (if state (w.arg i) = .hungry then .testLeft w else .tested w)
  | testLeft (w : Test) : Exec state back backFrom i (.testLeft w) .none
      (if state (left (w.arg i)) ≠ .eating then .testRight w else .tested w)
  | testRight (w : Test) : Exec state back backFrom i (.testRight w) .none
      (if state (right (w.arg i)) ≠ .eating then .eat w else .tested w)
  | eat (w : Test) : Exec state back backFrom i (.eat w) (.store (w.arg i) .eating) (.signal w)
  | signal (w : Test) :
      Exec state back backFrom i (.signal w) (.semaphore (w.arg i) .signal) (.signalling w)
  | signalled (w : Test) (h : backFrom (w.arg i)) :
      Exec state back backFrom i (.signalling w) .none (.tested w)
  | putRight : Exec state back backFrom i (.tested .putLeft) .none (.test .putRight)
  | unlock (w : Test) (h : w ≠ .putLeft) :
      Exec state back backFrom i (.tested w) (.mutex .unlock) (.unlocking w)
  | unlockedTake (h : back) : Exec state back backFrom i (.unlocking .take) .none .wait
  | unlockedPut (w : Test) (hw : w ≠ .take) (h : back) :
      Exec state back backFrom i (.unlocking w) .none .sleeping
  | wait : Exec state back backFrom i .wait (.semaphore i .wait) .waiting
  | fed (h : backFrom i) : Exec state back backFrom i .waiting .none .eating
  | lockPut : Exec state back backFrom i .eating (.mutex .lock) .putting
  | thinking (h : back) : Exec state back backFrom i .putting (.store i .thinking) (.test .putLeft)

/-! ## The end of the program -/

/-- The two fibers that use `sync_s`. -/
inductive Ender
  | main
  | g
  deriving DecidableEq, Repr

/-- Where they are. -/
inductive EnderPc
  /-- `main`, before its next `fiber_spawn`; it has spawned `n` philosophers. -/
  | spawning (n : Nat)
  /-- `fiber_semaphore_wait(sync_s)` -/
  | wait
  | waiting
  /-- `main` has returned. -/
  | returned
  /-- `g`, in its `fiber_sleep`. -/
  | sleeping
  /-- `fiber_semaphore_signal(sync_s)` -/
  | signal
  | signalling
  /-- `g` has returned. -/
  | done
  deriving DecidableEq, Repr

/-- The philosopher `n` is spawned; 5 stands for `g`. -/
def EnderPc.Spawned (n : Nat) : EnderPc → Prop
  | spawning k => n < k
  | _ => True

/-- **The code of `main` and of `g`**, with the call that it makes on `sync_s`; `back` says that the
call has returned. -/
inductive EnderExec (back : Prop) : Ender → EnderPc → Option SemaphoreOp → EnderPc → Prop
  | spawn (n : Nat) (h : n < 5) : EnderExec back .main (.spawning n) none (.spawning (n + 1))
  | spawnG (n : Nat) (h : ¬ n < 5) : EnderExec back .main (.spawning n) none .wait
  | wait : EnderExec back .main .wait (some .wait) .waiting
  | wakeup (h : back) : EnderExec back .main .waiting none .returned
  | awake : EnderExec back .g .sleeping none .signal
  | signal : EnderExec back .g .signal (some .signal) .signalling
  | signalled (h : back) : EnderExec back .g .signalling none .done

/-! ## The program -/

structure State where
  state : Ph → PhState
  m : Monitor.State Ph MutexOp (Owned Ph)
  s : Ph → Monitor.State Ph SemaphoreOp (Counted Ph)
  pc : Ph → Pc
  syncS : Monitor.State Ender SemaphoreOp (Counted Ender)
  ender : Ender → EnderPc
  /-- Ghost: how often each philosopher has got its forks. -/
  meals : Ph → Nat

namespace State

/-- What philosopher `i` does. -/
def perform (s : State) (i : Ph) : Act → State
  | .none => s
  | .store j v => { s with state := Function.update s.state j v }
  | .mutex op => { s with m := s.m.at i (.want op) }
  | .semaphore k op => { s with s := Function.update s.s k ((s.s k).at i (.want op)) }

/-- Philosopher `i` goes on to `p`. -/
def goto (s : State) (i : Ph) (p : Pc) : State :=
  { s with
    pc := Function.update s.pc i p,
    meals := if p = .eating then Function.update s.meals i (s.meals i + 1) else s.meals }

/-- `main` or `g` makes the call `c`, if any, and goes on to `p`. -/
def endTo (s : State) (e : Ender) (c : Option SemaphoreOp) (p : EnderPc) : State :=
  { s with
    ender := Function.update s.ender e p,
    syncS := match c with
      | none => s.syncS
      | some op => s.syncS.at e (.want op) }

/-- `main` has returned, and the process is over. -/
def Over (s : State) : Prop := s.ender .main = .returned

/-- `main` has created the mutex and the semaphores. -/
def start : State where
  state _ := .thinking
  m := .start .create
  s _ := .start (.boundCreate 0 1)
  pc _ := .think
  syncS := .start (.create 0)
  ender
    | .main => .spawning 0
    | .g => .sleeping
  meals _ := 0

end State

/-- A fiber that is spawned runs a piece of its code, or a call on the mutex or a semaphore goes
on. -/
inductive Step : State → State → Prop
  | exec {s : State} (i : Ph) {a : Act} {p : Pc} (hgo : ¬ s.Over)
      (hspawned : (s.ender .main).Spawned i)
      (h : Exec s.state (s.m.pc i = .idle) (fun k => (s.s k).pc i = .idle) i (s.pc i) a p) :
      Step s ((s.perform i a).goto i p)
  | mutex {s : State} (t : Monitor.State Ph MutexOp (Owned Ph)) (hgo : ¬ s.Over)
      (h : Internal (mutex Ph) s.m t) : Step s { s with m := t }
  | semaphore {s : State} (k : Ph) (t : Monitor.State Ph SemaphoreOp (Counted Ph))
      (hgo : ¬ s.Over) (h : Internal (semaphore Ph) (s.s k) t) :
      Step s { s with s := Function.update s.s k t }
  | ender {s : State} (e : Ender) {c : Option SemaphoreOp} {p : EnderPc} (hgo : ¬ s.Over)
      (hspawned : e = .g → (s.ender .main).Spawned 5)
      (h : EnderExec (s.syncS.pc e = .idle) e (s.ender e) c p) : Step s (s.endTo e c p)
  | syncS {s : State} (t : Monitor.State Ender SemaphoreOp (Counted Ender)) (hgo : ¬ s.Over)
      (h : Internal (semaphore Ender) s.syncS t) : Step s { s with syncS := t }

/-- The states of the program under any interleaving. -/
abbrev Reached : State → Prop := Reachable (fun s => s = .start) Step

end Demo.DiningPhilosopher
