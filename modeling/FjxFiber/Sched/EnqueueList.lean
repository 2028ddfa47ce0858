import FjxFiber.Lib.Splice
import Mathlib.Logic.Relation

/-!
# Handing out a list of fibers (`enqueue_fiber_list` in `src/scheduler.c`)

`call` is the function at the level of its pointers: one step for every statement that reads or
writes links, stores a `stack_top`, takes the lock or signals a thread. The list operations are a
parameter (`SpliceOps`); `fjx_list_link` and the reads of `next` are done on the links themselves.

Beside the pointers a `Config` keeps what they stand for (`Hands`) and a log of what was done.
`Next` interleaves the steps of the call with those of everybody else (`Others`).
-/

set_option autoImplicit false

namespace Sched.EnqueueList

open Lib

/-- The headers at hand: `&sched->fiber_list`, `&sched->idle_thread_list`, the argument
`fiber_list` and the local `thread_list`. -/
structure Headers (P : Type*) where
  schedFiberList : P
  idleThreadList : P
  fiberList : P
  threadList : P

/-- Where the call stands, with its locals. -/
inductive Pc (P : Type*)
  | init
  /-- `while (!fjx_list_empty(fiber_list))` -/
  | loop
  | lock
  /-- The first `if`, with the lock held. -/
  | idleTest
  | append
  | takeThreads
  /-- The head of `while (true)`. -/
  | first
  /-- `while (ix != fiber_list && iy != &thread_list)` -/
  | walk (ix iy : P)
  | read (ix iy : P)
  | store (ix iy tix tiy : P)
  | signal (ix iy tix tiy : P)
  /-- Behind the inner loop. -/
  | after (ix iy : P)
  | relock
  /-- The `if` under the second lock. -/
  | queueTest
  | putBack
  | takeFibers
  | ret
  deriving DecidableEq, Repr

namespace Pc

variable {P : Type*}

/-- The call holds `sched->queue_lock`. -/
def locked : Pc P → Bool
  | idleTest | append | takeThreads | queueTest | putBack | takeFibers => true
  | _ => false

/-- The fiber and the thread between the store of the `stack_top` and the signal. -/
def giving : Pc P → List P
  | signal ix iy _ _ => [ix, iy]
  | _ => []

end Pc

/-- The state of the call: the links of all list nodes, and for the nodes of fibers and threads
`f->stack_top` and `th->thread_fiber.stack_top`. -/
structure State (P V : Type*) where
  pc : Pc P
  links : Links P
  stackTop : P → V

section
variable {P V : Type*} [DecidableEq P]

/-- The next step of `enqueue_fiber_list`; `none` once it has returned. -/
def call (O : SpliceOps P) (H : Headers P) (s : State P V) : Option (State P V) :=
  match s.pc with
  | .init => some { s with pc := .loop, links := O.init H.threadList s.links }
  | .loop => some { s with pc := if O.empty H.fiberList s.links then .ret else .lock }
  | .lock => some { s with pc := .idleTest }
  | .idleTest =>
      some { s with pc := if O.empty H.idleThreadList s.links then .append else .takeThreads }
  | .append =>
      some { s with pc := .ret, links := O.addListTail H.schedFiberList H.fiberList s.links }
  | .takeThreads =>
      some { s with
        pc := .first, links := O.replaceInit H.idleThreadList H.threadList s.links }
  | .first => some { s with pc := .walk (s.links.next H.fiberList) (s.links.next H.threadList) }
  | .walk ix iy =>
      some { s with
        pc := if ix ≠ H.fiberList ∧ iy ≠ H.threadList then .read ix iy else .after ix iy }
  | .read ix iy => some { s with pc := .store ix iy (s.links.next ix) (s.links.next iy) }
  | .store ix iy tix tiy =>
      some { s with
        pc := .signal ix iy tix tiy
        stackTop := Function.update s.stackTop iy (s.stackTop ix) }
  | .signal _ _ tix tiy => some { s with pc := .walk tix tiy }
  | .after ix iy =>
      if ix = H.fiberList then
        if iy = H.threadList then some { s with pc := .ret }
        else some { s with pc := .relock, links := O.link H.threadList iy s.links }
      else some { s with pc := .loop, links := O.link H.fiberList ix s.links }
  | .relock => some { s with pc := .queueTest }
  | .queueTest =>
      some { s with pc := if O.empty H.schedFiberList s.links then .putBack else .takeFibers }
  | .putBack =>
      some { s with pc := .ret, links := O.addList H.idleThreadList H.threadList s.links }
  | .takeFibers =>
      some { s with
        pc := .first, links := O.replaceInit H.schedFiberList H.fiberList s.links }
  | .ret => none

end

/-! ## What the pointers stand for -/

/-- The contents of the lists: the run queue and the idle threads, the fibers and the threads in
the hands of the call, and the nodes that it has handed over and that nobody has linked into the
run queue or the idle list again. -/
structure Hands (P : Type*) where
  queue : List P
  idle : List P
  fibers : List P
  threads : List P
  released : List P

/-- What the call does to fibers and threads. -/
inductive Event (P V : Type*)
  /-- `th->thread_fiber.stack_top = f->stack_top`, and the value that is stored. -/
  | store (f th : P) (top : V)
  /-- `fjx_thread_semaphore_signal(&th->s)`, and the `stack_top` the thread is signalled with. -/
  | signal (th : P) (top : V)
  /-- Fibers go to the tail of the run queue. -/
  | append (fs : List P)
  /-- The whole run queue is taken. -/
  | takeFibers (fs : List P)
  /-- All idle threads are taken. -/
  | takeThreads (ths : List P)
  /-- Threads go back to the idle list, and the run queue at that time. -/
  | putBack (ths queue : List P)

section
variable {P V : Type*} [DecidableEq P]

/-- The contents after a step. -/
def Hands.after (a : Hands P) : Pc P → Hands P
  | .append => { a with queue := a.queue ++ a.fibers, fibers := [] }
  | .takeThreads => { a with threads := a.threads ++ a.idle, idle := [] }
  | .store ix iy _ _ => { a with fibers := a.fibers.erase ix, threads := a.threads.erase iy }
  | .signal ix iy _ _ => { a with released := ix :: iy :: a.released }
  | .putBack => { a with idle := a.threads ++ a.idle, threads := [] }
  | .takeFibers => { a with fibers := a.fibers ++ a.queue, queue := [] }
  | _ => a

/-- What a step does. -/
def State.events (s : State P V) (a : Hands P) : List (Event P V) :=
  match s.pc with
  | .append => [.append a.fibers]
  | .takeThreads => [.takeThreads a.idle]
  | .store ix iy _ _ => [.store ix iy (s.stackTop ix)]
  | .signal _ iy _ _ => [.signal iy (s.stackTop iy)]
  | .putBack => [.putBack a.threads a.queue]
  | .takeFibers => [.takeFibers a.queue]
  | _ => []

/-- A state of the call with its contents, and everything done so far. -/
structure Config (P V : Type*) extends State P V where
  hands : Hands P
  log : List (Event P V)

namespace Config

/-- The nodes of the call: its two headers and the fibers and threads in its hands. -/
def held (H : Headers P) (c : Config P V) : List P :=
  H.fiberList :: c.hands.fibers ++ H.threadList :: c.hands.threads ++ c.pc.giving

/-- The nodes of the two lists of the scheduler. -/
def shared (H : Headers P) (c : Config P V) : List P :=
  H.schedFiberList :: c.hands.queue ++ H.idleThreadList :: c.hands.idle

/-- The call takes a step. -/
def move (O : SpliceOps P) (H : Headers P) (c : Config P V) : Option (Config P V) :=
  (call O H c.toState).map fun s =>
    { toState := s, hands := c.hands.after c.pc, log := c.log ++ c.events c.hands }

end Config

/-! ## Everybody else -/

/-- Other threads of control run: they change the run queue and the idle list as they like while
the lock is free, and all nodes that are not of the call. What the call has in its hands they
leave alone, and they link none of it. -/
structure Others (H : Headers P) (c c' : Config P V) : Prop where
  pc : c'.pc = c.pc
  log : c'.log = c.log
  fibers : c'.hands.fibers = c.hands.fibers
  threads : c'.hands.threads = c.hands.threads
  released : c'.hands.released = c.hands.released.filter (· ∉ c'.shared H)
  links : ∀ x ∈ c.held H, c'.links.SameAt c.links x
  stackTop : ∀ x ∈ c.held H, c'.stackTop x = c.stackTop x
  queue : c'.links.Ring H.schedFiberList c'.hands.queue
  idle : c'.links.Ring H.idleThreadList c'.hands.idle
  nodup : (c'.held H ++ c'.shared H).Nodup
  locked : c.pc.locked → c'.hands.queue = c.hands.queue ∧ c'.hands.idle = c.hands.idle

/-- A step of the call or of anybody else. -/
inductive Next (O : SpliceOps P) (H : Headers P) : Config P V → Config P V → Prop
  | call {c c'} (h : c.move O H = some c') : Next O H c c'
  | others {c c'} (h : Others H c c') : Next O H c c'

/-- The call is entered with a well linked list of fibers. -/
structure Start (H : Headers P) (c : Config P V) : Prop where
  pc : c.pc = .init
  fibers : c.links.Ring H.fiberList c.hands.fibers
  queue : c.links.Ring H.schedFiberList c.hands.queue
  idle : c.links.Ring H.idleThreadList c.hands.idle
  nodup : (c.held H ++ c.shared H).Nodup
  threads : c.hands.threads = []
  released : c.hands.released = []
  log : c.log = []

end

end Sched.EnqueueList
