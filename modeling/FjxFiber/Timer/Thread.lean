import FjxFiber.Timer.Refine

/-!
# The timer thread and sleeping calls (`src/timer.c`)

`Run` interleaves `timer_thread` with any number of calls of `fiber_sleep`, each named by its timer
node. The mutex `timer->m` is explicit, and so are the waits on `timer->c`, which may end without a
signal. How a fiber switches away before `timer_add_fiber`, and how `enqueue_fiber_list` resumes
it, is in `Sched`.
-/

set_option autoImplicit false

namespace Timer

open Lib Lib.StableQueue

/-! ## Deadlines -/

/-- `GIGA_CONSTANT`. -/
def gigaConstant : Int := 1000000000

/-- What `timespec_get` returns is normalized. -/
def Timespec.Normal (t : Timespec) : Prop := 0 ≤ t.tvNsec ∧ t.tvNsec < gigaConstant

/-- The time in nanoseconds. -/
def Timespec.ns (t : Timespec) : Int := t.tvSec * gigaConstant + t.tvNsec

/-- What `fiber_sleep` makes of its reading of the clock. -/
def fiberSleep (cur duration : Timespec) : Timespec :=
  let tvSec := cur.tvSec + duration.tvSec
  let tvNsec := cur.tvNsec + duration.tvNsec
  ⟨tvSec + tvNsec.tdiv gigaConstant, tvNsec.tmod gigaConstant⟩

/-! ## Threads -/

/-- Where a call of `fiber_sleep(d)` is, which first read the clock as `c0`; `n` is the number of
its insertion. -/
inductive Call
  | out
  | start (d : Timespec)
  /-- `fiber_timer_set_timeout`: about to read the clock again. -/
  | setTimeout (c0 d : Timespec)
  /-- Switched away; `timer_add_fiber` is to take the mutex. -/
  | addLock (c0 d : Timespec)
  | add (c0 d : Timespec)
  /-- The node is the earliest: about to signal. -/
  | signal (n : Nat)
  | unlock (n : Nat)
  | asleep (n : Nat)
  /-- Put in the run queue, or already running. -/
  | awake (n : Nat)

/-- Where `timer_thread` is. -/
inductive Loop (α : Type*)
  | lock
  | test
  /-- In `cnd_wait`, or in `cnd_timedwait` until a deadline. -/
  | blocked (deadline : Option Timespec)
  /-- The wait is over; about to take the mutex again. -/
  | woken (deadline : Option Timespec)
  /-- The test after `cnd_wait`. -/
  | retest
  /-- About to read the clock and `min_time`. -/
  | readClock
  /-- About to unlock, with what is on `awake_list`. -/
  | unlock (awake : List (Entry Timespec α))
  | enqueue (awake : List (Entry Timespec α))

/-- A thread that may hold `timer->m`. -/
inductive Holder (α : Type*)
  | timer
  | call (a : α)

namespace Call

/-- The call holds `timer->m`. -/
def holds : Call → Bool
  | add _ _ | signal _ | unlock _ => true
  | _ => false

/-- The first reading and the duration, from the node's deadline on until its insertion. -/
def deadline : Call → Option (Timespec × Timespec)
  | setTimeout c0 d | addLock c0 d | add c0 d => some (c0, d)
  | _ => none

/-- The number of the insertion, until the fiber is handed on. -/
def inserted : Call → Option Nat
  | signal n | unlock n | asleep n => some n
  | _ => none

/-- The number of the insertion, until the call returns. -/
def number : Call → Option Nat
  | signal n | unlock n | asleep n | awake n => some n
  | _ => none

end Call

namespace Loop

variable {α : Type*}

/-- The timer thread holds `timer->m`. -/
def holds : Loop α → Bool
  | test | retest | readClock | unlock _ => true
  | _ => false

/-- `cnd_signal` wakes the timer thread if it waits. -/
def notified : Loop α → Loop α
  | blocked deadline => woken deadline
  | l => l

/-- Taken from the store, and not yet handed to the scheduler. -/
def awakeList : Loop α → List (Entry Timespec α)
  | unlock awake | enqueue awake => awake
  | _ => []

end Loop

/-! ## Runs -/

/-- A call that inserted its node. -/
structure Sleep (α : Type*) where
  node : α
  c0 : Timespec
  d : Timespec

/-- An expiry pass: its reading of the clock, and what it put on `awake_list`. -/
structure Pass (α : Type*) where
  cur : Timespec
  awake : List (Entry Timespec α)

/-- A call that returned without suspending, and its second reading. -/
structure Late where
  c0 : Timespec
  d : Timespec
  cur : Timespec

structure RunState (α : Type*) where
  timer : FiberTimer α
  mtx : Option (Holder α)
  loop : Loop α
  call : α → Call
  /-- Ghost: the queue that the store holds. -/
  queue : List (Entry Timespec α)
  /-- Ghost: what has happened so far. -/
  sleeps : List (Sleep α)
  passes : List (Pass α)
  /-- What has been handed on from `awake_list`, in order. -/
  woken : List (Entry Timespec α)
  late : List Late

variable {α : Type*} [DecidableEq α]

def RunState.goto (s : RunState α) (a : α) (p : Call) : RunState α :=
  { s with call := Function.update s.call a p }

/-- The entry of a call, for the abstract queue. -/
def Sleep.entry (x : Sleep α) (n : Nat) : Entry Timespec α := ⟨fiberSleep x.c0 x.d, n, x.node⟩

variable (O : ListOps (Ptr α)) (S : Splay α)

inductive Run : RunState α → RunState α → Prop
  -- `fiber_sleep` and `fiber_timer_set_timeout`
  | sleep {s} (a : α) (d : Timespec) (h : s.call a = .out) : Run s (s.goto a (.start d))
  | first {s a d} (c0 : Timespec) (h : s.call a = .start d) (hc : c0.Normal) :
      Run s { s.goto a (.setTimeout c0 d) with timer := setTp a (fiberSleep c0 d) s.timer }
  | late {s a c0 d} (cur : Timespec) (h : s.call a = .setTimeout c0 d) (hc : cur.Normal)
      (hcur : timespecComp cur (s.timer.tp a) = false) :
      Run s { s.goto a .out with late := s.late ++ [⟨c0, d, cur⟩] }
  | early {s a c0 d} (cur : Timespec) (h : s.call a = .setTimeout c0 d) (hc : cur.Normal)
      (hcur : timespecComp cur (s.timer.tp a) = true) : Run s (s.goto a (.addLock c0 d))
  -- `timer_add_fiber`
  | addLock {s a c0 d} (h : s.call a = .addLock c0 d) (hm : s.mtx = none) :
      Run s { s.goto a (.add c0 d) with mtx := some (.call a) }
  | add {s a c0 d r} (h : s.call a = .add c0 d) (hr : insertTimeNode O S a s.timer = some r) :
      Run s { s.goto a (if r.earliest then .signal s.sleeps.length else .unlock s.sleeps.length)
        with
        timer := r.timer
        queue := insertStable (Sleep.entry ⟨a, c0, d⟩ s.sleeps.length) s.queue
        sleeps := s.sleeps ++ [⟨a, c0, d⟩] }
  | signal {s a n} (h : s.call a = .signal n) :
      Run s { s.goto a (.unlock n) with loop := s.loop.notified }
  | addUnlock {s a n} (h : s.call a = .unlock n) :
      Run s { s.goto a (.asleep n) with mtx := none }
  -- the call returns
  | wake {s a n} (h : s.call a = .awake n) : Run s (s.goto a .out)
  -- `timer_thread`
  | lock {s} (h : s.loop = .lock) (hm : s.mtx = none) :
      Run s { s with loop := .test, mtx := some .timer }
  | testEmpty {s} (h : s.loop = .test ∨ s.loop = .retest) (ht : s.timer.timeTree = .nil) :
      Run s { s with loop := .blocked none, mtx := none }
  | testFull {s} (h : s.loop = .test) (ht : s.timer.timeTree ≠ .nil) :
      Run s { s with loop := .readClock }
  | retestFull {s} (h : s.loop = .retest) (ht : s.timer.timeTree ≠ .nil) :
      Run s { s with loop := .unlock [] }
  | waitTimed {s m} (cur : Timespec) (h : s.loop = .readClock) (hc : cur.Normal)
      (hm : s.timer.minTime = some m) (hcur : timespecComp cur (s.timer.tp m) = true) :
      Run s { s with loop := .blocked (some (s.timer.tp m)), mtx := none }
  | pass {s m timer} (cur : Timespec) (h : s.loop = .readClock) (hc : cur.Normal)
      (hm : s.timer.minTime = some m) (hcur : timespecComp cur (s.timer.tp m) = false)
      (hr : expire O S cur s.timer = some timer) :
      Run s { s with
        timer
        loop := .unlock (upTo cur s.queue)
        queue := after cur s.queue
        passes := s.passes ++ [⟨cur, upTo cur s.queue⟩] }
  /-- A wait ends by its deadline, or for no reason. -/
  | spurious {s deadline} (h : s.loop = .blocked deadline) :
      Run s { s with loop := .woken deadline }
  | relock {s deadline} (h : s.loop = .woken deadline) (hm : s.mtx = none) :
      Run s { s with
        loop := if deadline.isSome then .readClock else .retest, mtx := some .timer }
  | unlock {s awake} (h : s.loop = .unlock awake) :
      Run s { s with loop := .enqueue awake, mtx := none }
  /-- `enqueue_fiber_list` hands the first fiber on. -/
  | enqueue {s e awake} (h : s.loop = .enqueue (e :: awake)) :
      Run s { s.goto e.val (.awake e.seq) with
        loop := .enqueue awake, woken := s.woken ++ [e] }
  | again {s} (h : s.loop = .enqueue []) : Run s { s with loop := .lock }
  /-- Nodes that are linked neither in the store nor on `awake_list` are linked elsewhere. -/
  | relink {s} (links : Links (Ptr α))
      (hkeep : ∀ p, p = .timeList ∨ (∃ a ∈ s.timer.timeTree.inorder, p = .link a) ∨
        (∃ awake, s.loop = .unlock awake ∧ p ∈ .awakeList :: linksOf awake) →
        links.SameAt s.timer.links p) :
      Run s { s with timer := { s.timer with links } }

/-- After `fiber_timer_init`, no call has begun, and the timer thread has just been started. -/
abbrev RunReached : RunState α → Prop :=
  Reachable (fun s => ∃ timer, s = ⟨fiberTimerInit O timer, none, .lock, fun _ => .out, [], [], [],
    [], []⟩) (Run O S)

end Timer
