import FjxFiber.Channel.Model
import FjxFiber.Sync.Mutex
import FjxFiber.Sync.Semaphore
import FjxFiber.Timer.Refine

/-!
# The scheduler (`src/scheduler.c`, `src/fiber.c`, `src/work-thread.c`, `src/timer.c`)

Work threads and the timer thread execute contexts: fibers, the loops of the work threads, and the
loop of the timer thread. A context is a stack of `Frame`s, the innermost call first; a frame says
what the call does next. `fiber_switch` suspends the running context and resumes another one from
a `stack_top`, which names a context and how much of its stack is in use; `fiber_add_deferred`
writes one more frame above it.

`Step` interleaves the pieces of all operations on any number of work threads. A piece is what a
thread does under one lock, from its first access to the unlock, or a single access outside the
locks; taking a lock is a step of its own (`Step.acquire`). The sections of mutexes, semaphores and
channels are those of `Sync` and `Channel`, the timer store is the stable queue it refines
(`Timer.fiberTimer_refines`), and which stack a fiber runs on is left to `Pool`.
-/

set_option autoImplicit false

namespace Sched

open Lib Lib.StableQueue Timer

/-! ## Objects -/

/-- A fiber; 0 is the main fiber. -/
abbrev Fid := Nat

/-- A work thread; 0 is the main thread. -/
abbrev Wid := Nat

/-- A mutex, semaphore or channel. -/
abbrev Oid := Nat

inductive Object
  | mutex (m : Sync.FiberMutex Fid)
  | semaphore (s : Sync.FiberSemaphore Fid)
  | channel (ch : Channel.FiberChannel Fid)

inductive Op
  | lock
  | unlock
  | wait
  | signal
  | send
  | receive
  | close
  | destroy
  deriving DecidableEq, Repr

/-- How a call goes on after its critical section. -/
inductive Outcome
  | ret
  /-- The caller is linked; the lock is released by a deferred operation. -/
  | block
  /-- The fiber `g` was popped and is to be enqueued. -/
  | wake (g : Fid)
  /-- The fiber `g` was popped and is to be switched to. -/
  | transfer (g : Fid)
  /-- The fibers were moved to a local list. -/
  | drain (gs : List Fid)

def Outcome.ofMonitor : Monitor.Outcome Fid → Outcome
  | .ret => .ret
  | .block => .block
  | .wake g => .wake g
  | .drain gs => .drain gs

def Outcome.ofChannel : Channel.Next Fid → Outcome
  | .ret _ | .stop => .ret
  | .block => .block
  | .pop g => .transfer g
  | .close gs | .destroy gs => .drain gs

namespace Object

/-- What `f` does to an object while it holds the object's lock. -/
def critical (op : Op) (f : Fid) : Object → Object × Outcome
  | .mutex m =>
    match op with
    | .lock => (.mutex (m.lockImpl f).1, .ofMonitor (m.lockImpl f).2)
    | .unlock => (.mutex m.unlockImpl.1, .ofMonitor m.unlockImpl.2)
    | .destroy => (.mutex m.destroyImpl.1, .ofMonitor m.destroyImpl.2)
    | _ => (.mutex m, .ret)
  | .semaphore s =>
    match op with
    | .wait => (.semaphore (s.waitImpl f).1, .ofMonitor (s.waitImpl f).2)
    | .signal => (.semaphore s.signalImpl.1, .ofMonitor s.signalImpl.2)
    | .destroy => (.semaphore s.destroyImpl.1, .ofMonitor s.destroyImpl.2)
    | _ => (.semaphore s, .ret)
  | .channel ch =>
    match op with
    | .send => (.channel (ch.sendImpl f).1, .ofChannel (ch.sendImpl f).2)
    | .receive => (.channel (ch.receiveImpl f).1, .ofChannel (ch.receiveImpl f).2)
    | .close => (.channel ch.closeImpl.1, .ofChannel ch.closeImpl.2)
    | .destroy => (.channel ch.destroyImpl.1, .ofChannel ch.destroyImpl.2)
    | _ => (.channel ch, .ret)

/-- The fibers linked in an object. -/
def waiters : Object → List Fid
  | mutex m => m.fiberList
  | semaphore s => s.fiberList
  | channel ch => ch.ritemList ++ ch.witemList

/-- What send and close test before they take the lock. -/
def closed : Object → Bool
  | channel ch => ch.closed
  | _ => false

/-- An object as its `create` function makes it. -/
def Fresh (o : Object) : Prop :=
  o = mutex .create ∨ (∃ count bound, o = semaphore (.boundCreate count bound)) ∨
    ∃ itemSize, o = channel (.create itemSize)

end Object

/-! ## Contexts -/

/-- An operation pushed by `fiber_add_deferred`, with its argument. -/
inductive Deferred
  | enqueue (f : Fid)
  | recycle (f : Fid)
  | timerAdd (f : Fid) (tp : Timespec)
  | unlock (o : Oid)

/-- What a call does next. The popped fiber whose `stack_top` a switch uses is written in the
frames of the switch; it is `none` for the loop of the work thread. -/
inductive Frame
  /-- The fiber's own code. -/
  | user
  /-- Send and close: about to test `ch->closed` without the lock. -/
  | channelTest (o : Oid) (op : Op)
  | objectOp (o : Oid) (op : Op)
  /-- `get_available_memory`, for a new fiber. -/
  | spawn
  | queryMemory (f : Fid)
  | spawnNew
  /-- `fiber_timer_set_timeout`: about to read the clock. -/
  | sleepTest (tp : Timespec)
  /-- `get_available_fiber`, on the way to a switch that is to push `d`. -/
  | getAvailable (d : Deferred)
  /-- About to copy the `stack_top` to switch to. -/
  | copy (src : Option Fid) (d : Deferred)
  /-- `fiber_add_deferred`. -/
  | push (d : Deferred) (src : Option Fid)
  /-- `fiber_switch`. -/
  | switch (d : Deferred) (src : Option Fid)
  | enqueue (f : Fid)
  /-- About to store the `stack_top` of `f` in `thread_fiber` of `w`; `k` is what is left of the
  two lists of `enqueue_fiber_list`. -/
  | store (f : Fid) (w : Wid) (k : Option (List Fid × List Wid))
  | signal (w : Wid) (k : Option (List Fid × List Wid))
  /-- `enqueue_fiber_list`: the outer loop. -/
  | enqueueList (l : List Fid)
  /-- The inner loop, over the fibers and the idle threads. -/
  | pairUp (l : List Fid) (ths : List Wid)
  /-- About to give back the threads. -/
  | giveBack (ths : List Wid)
  | unlock (o : Oid)
  | recycle (f : Fid)
  | timerAdd (f : Fid) (tp : Timespec)
  /-- `work_thread_loop`. -/
  | loopTop
  /-- In `idle_thread_list`, waiting on its semaphore. -/
  | loopPark
  | loopCopy (g : Fid)
  | loopSwitch
  /-- `timer_thread`. -/
  | timerTop

inductive Ctx
  | fiber (f : Fid)
  | loop (w : Wid)
  | timer
  deriving DecidableEq, Repr

inductive Thr
  | work (w : Wid)
  | timer
  deriving DecidableEq, Repr

inductive Lock
  | queue
  | disposed
  | timer
  | object (o : Oid)
  deriving DecidableEq, Repr

/-- A saved stack pointer: of a context, with so many frames. -/
structure StackTop where
  ctx : Ctx
  depth : Nat
  deriving DecidableEq, Repr

/-- What a thread executes. -/
structure Running where
  ctx : Ctx
  frames : List Frame

def Deferred.frame : Deferred → Frame
  | enqueue f => .enqueue f
  | recycle f => .recycle f
  | timerAdd f tp => .timerAdd f tp
  | unlock o => .unlock o

/-- The lock that a frame takes next. -/
def Frame.wants : Frame → Option Lock
  | objectOp o _ => some (.object o)
  | spawn | recycle _ => some .disposed
  | getAvailable _ | enqueue _ | enqueueList (_ :: _) | giveBack _ | loopTop => some .queue
  | timerAdd _ _ | timerTop => some .timer
  | _ => none

/-- The frames above the saved stack pointer. -/
def cut (depth : Nat) (frames : List Frame) : List Frame := frames.drop (frames.length - depth)

/-! ## States -/

structure State where
  /-- What the threads that have been started execute. -/
  thr : Thr → Option Running
  /-- The stacks of the suspended contexts. -/
  susp : Ctx → List Frame
  /-- Ghost: how many frames a suspended context had when it switched away, or was made. -/
  saved : Ctx → Option Nat
  /-- `stack_top` of the descriptor that a fiber has switched away with, or was made with. -/
  desc : Fid → Option StackTop
  /-- `thread_fiber.stack_top`. -/
  threadFiber : Wid → Option StackTop
  /-- Ghost: the fiber whose `stack_top` was stored in `thread_fiber` and not switched to yet. -/
  stored : Wid → Option Fid
  fiberList : List Fid
  idleThreadList : List Wid
  disposedFiberList : List Fid
  timeList : List (Entry Timespec Fid)
  /-- The insertions in the timer so far. -/
  inserts : Nat
  /-- The counts of the thread semaphores. -/
  sem : Wid → Nat
  lock : Lock → Option Thr
  obj : Oid → Object
  /-- A destroy has taken the lock. -/
  destroyed : Oid → Bool
  spawned : Fid → Bool
  /-- Ghost: the fibers whose stack has been handed out again. -/
  recycled : Fid → Bool

namespace State

/-- The thread `t` executes `F` of the context `c`. -/
def run (s : State) (t : Thr) (c : Ctx) (F : List Frame) : State :=
  { s with thr := Function.update s.thr t (some ⟨c, F⟩) }

def release (s : State) (L : Lock) : State := { s with lock := Function.update s.lock L none }

def setDesc (s : State) (f : Fid) (top : Option StackTop) : State :=
  { s with desc := Function.update s.desc f top }

/-- The `stack_top` of `g` is stored in `thread_fiber` of `w`. -/
def give (s : State) (g : Fid) (w : Wid) : State :=
  { s with threadFiber := Function.update s.threadFiber w (s.desc g),
           stored := Function.update s.stored w (some g) }

end State

/-- The first frame of an operation on an object. -/
def Op.entry (o : Oid) : Op → Frame
  | .send => .channelTest o .send
  | .close => .channelTest o .close
  | op => .objectOp o op

/-- The frames after the section of an operation by `f`. -/
def Outcome.next (o : Oid) (f : Fid) (rest : List Frame) : Outcome → List Frame
  | ret => rest
  | block => .copy none (.unlock o) :: rest
  | wake g => .enqueue g :: rest
  | transfer g => .copy (some g) (.enqueue f) :: rest
  | drain gs => .enqueueList gs :: rest

/-- The lock is kept by a caller that blocks. -/
def Outcome.holds : Outcome → Bool
  | block => true
  | _ => false

/-- Steps that change nothing but the frames of the thread that takes them. -/
inductive Quiet (s : State) : Ctx → List Frame → List Frame → Prop
  /-- A fiber calls an operation on an object that has not been destroyed. -/
  | object {f rest} (o : Oid) (op : Op) (hopen : s.destroyed o = false) :
      Quiet s (.fiber f) (.user :: rest) (op.entry o :: .user :: rest)
  | channelClosed {c rest} (o : Oid) (op : Op) (hclosed : (s.obj o).closed = true) :
      Quiet s c (.channelTest o op :: rest) rest
  | channelOpen {c rest} (o : Oid) (op : Op) (hclosed : (s.obj o).closed = false) :
      Quiet s c (.channelTest o op :: rest) (.objectOp o op :: rest)
  | spawn {f rest} : Quiet s (.fiber f) (.user :: rest) (.spawn :: .user :: rest)
  | yield {f rest} :
      Quiet s (.fiber f) (.user :: rest) (.getAvailable (.enqueue f) :: .user :: rest)
  /-- The function of a spawned fiber returns. -/
  | exit {f rest} (hf : f ≠ 0) :
      Quiet s (.fiber f) (.user :: rest) (.getAvailable (.recycle f) :: .user :: rest)
  | sleep {f rest} (tp : Timespec) :
      Quiet s (.fiber f) (.user :: rest) (.sleepTest tp :: .user :: rest)
  | sleepLate {c rest} (tp : Timespec) : Quiet s c (.sleepTest tp :: rest) rest
  | sleepEarly {f rest} (tp : Timespec) :
      Quiet s (.fiber f) (.sleepTest tp :: rest) (.getAvailable (.timerAdd f tp) :: rest)
  | listDone {c rest} : Quiet s c (.enqueueList [] :: rest) rest
  | pairDone {c rest} : Quiet s c (.pairUp [] [] :: rest) rest
  | pairBack {c rest} (w : Wid) (ths : List Wid) :
      Quiet s c (.pairUp [] (w :: ths) :: rest) (.giveBack (w :: ths) :: rest)
  | pairMore {c rest} (f : Fid) (l : List Fid) :
      Quiet s c (.pairUp (f :: l) [] :: rest) (.enqueueList (f :: l) :: rest)
  | pairNext {c rest} (f : Fid) (l : List Fid) (w : Wid) (ths : List Wid) :
      Quiet s c (.pairUp (f :: l) (w :: ths) :: rest) (.store f w (some (l, ths)) :: rest)

inductive Step : State → State → Prop
  | quiet {s t c F F'} (ht : s.thr t = some ⟨c, F⟩) (h : Quiet s c F F') : Step s (s.run t c F')
  | acquire {s t c fr rest} (L : Lock) (ht : s.thr t = some ⟨c, fr :: rest⟩)
      (hw : fr.wants = some L) (hl : s.lock L = none) :
      Step s { s with lock := Function.update s.lock L (some t) }
  /-- A work thread is started. -/
  | start {s} (w : Wid) (ht : s.thr (.work w) = none) :
      Step s { s.run (.work w) (.loop w) [.loopTop] with
        threadFiber := Function.update s.threadFiber w none }
  -- `get_available_fiber`
  | yieldEmpty {s w f g rest}
      (ht : s.thr (.work w) = some ⟨.fiber f, .getAvailable (.enqueue g) :: rest⟩)
      (hl : s.lock .queue = some (.work w)) (hq : s.fiberList = []) :
      Step s (((s.run (.work w) (.fiber f) rest).release .queue).setDesc f (s.threadFiber w))
  | availEmpty {s t c d rest} (ht : s.thr t = some ⟨c, .getAvailable d :: rest⟩)
      (hl : s.lock .queue = some t) (hq : s.fiberList = []) (hd : ∀ g, d ≠ .enqueue g) :
      Step s ((s.run t c (.copy none d :: rest)).release .queue)
  | availPop {s t c d rest g l} (ht : s.thr t = some ⟨c, .getAvailable d :: rest⟩)
      (hl : s.lock .queue = some t) (hq : s.fiberList = g :: l) :
      Step s { (s.run t c (.copy (some g) d :: rest)).release .queue with fiberList := l }
  -- the way to a switch
  | copyFiber {s t f g d rest} (ht : s.thr t = some ⟨.fiber f, .copy (some g) d :: rest⟩) :
      Step s ((s.run t (.fiber f) (.push d (some g) :: rest)).setDesc f (s.desc g))
  | copyThread {s w f d rest} (ht : s.thr (.work w) = some ⟨.fiber f, .copy none d :: rest⟩) :
      Step s ((s.run (.work w) (.fiber f) (.push d none :: rest)).setDesc f (s.threadFiber w))
  | push {s t f d src rest x n} (ht : s.thr t = some ⟨.fiber f, .push d src :: rest⟩)
      (hd : s.desc f = some ⟨x, n⟩) :
      Step s { (s.run t (.fiber f) (.switch d src :: rest)).setDesc f (some ⟨x, n + 1⟩) with
        susp := Function.update s.susp x (d.frame :: cut n (s.susp x)) }
  | switch {s t f d src rest x n} (ht : s.thr t = some ⟨.fiber f, .switch d src :: rest⟩)
      (hd : s.desc f = some ⟨x, n⟩) :
      Step s { (s.run t x (cut n (s.susp x))).setDesc f (some ⟨.fiber f, rest.length⟩) with
        susp := Function.update s.susp (.fiber f) rest
        saved := Function.update (Function.update s.saved (.fiber f) (some rest.length)) x none }
  -- `enqueue_fiber`
  | enqueueIdle {s t c g w ws rest} (ht : s.thr t = some ⟨c, .enqueue g :: rest⟩)
      (hl : s.lock .queue = some t) (hi : s.idleThreadList = w :: ws) :
      Step s { (s.run t c (.store g w none :: rest)).release .queue with idleThreadList := ws }
  | enqueueTail {s t c g rest} (ht : s.thr t = some ⟨c, .enqueue g :: rest⟩)
      (hl : s.lock .queue = some t) (hi : s.idleThreadList = []) :
      Step s { (s.run t c rest).release .queue with fiberList := s.fiberList ++ [g] }
  | store {s t c g w k rest} (ht : s.thr t = some ⟨c, .store g w k :: rest⟩) :
      Step s ((s.run t c (.signal w k :: rest)).give g w)
  | signal {s t c w rest} (ht : s.thr t = some ⟨c, .signal w none :: rest⟩) :
      Step s { s.run t c rest with sem := Function.update s.sem w (s.sem w + 1) }
  | signalNext {s t c w l ths rest} (ht : s.thr t = some ⟨c, .signal w (some (l, ths)) :: rest⟩) :
      Step s { s.run t c (.pairUp l ths :: rest) with
        sem := Function.update s.sem w (s.sem w + 1) }
  -- `enqueue_fiber_list`
  | listTail {s t c f l rest} (ht : s.thr t = some ⟨c, .enqueueList (f :: l) :: rest⟩)
      (hl : s.lock .queue = some t) (hi : s.idleThreadList = []) :
      Step s { (s.run t c rest).release .queue with fiberList := s.fiberList ++ f :: l }
  | listTake {s t c f l rest} (ht : s.thr t = some ⟨c, .enqueueList (f :: l) :: rest⟩)
      (hl : s.lock .queue = some t) (hi : s.idleThreadList ≠ []) :
      Step s { (s.run t c (.pairUp (f :: l) s.idleThreadList :: rest)).release .queue with
        idleThreadList := [] }
  | backIdle {s t c ths rest} (ht : s.thr t = some ⟨c, .giveBack ths :: rest⟩)
      (hl : s.lock .queue = some t) (hq : s.fiberList = []) :
      Step s { (s.run t c rest).release .queue with idleThreadList := ths ++ s.idleThreadList }
  | backSteal {s t c ths rest} (ht : s.thr t = some ⟨c, .giveBack ths :: rest⟩)
      (hl : s.lock .queue = some t) (hq : s.fiberList ≠ []) :
      Step s { (s.run t c (.pairUp s.fiberList ths :: rest)).release .queue with fiberList := [] }
  -- `work_thread_loop`
  | loopIdle {s t w rest} (ht : s.thr t = some ⟨.loop w, .loopTop :: rest⟩)
      (hl : s.lock .queue = some t) (hq : s.fiberList = []) :
      Step s { (s.run t (.loop w) (.loopPark :: rest)).release .queue with
        idleThreadList := s.idleThreadList ++ [w] }
  | loopPop {s t w g l rest} (ht : s.thr t = some ⟨.loop w, .loopTop :: rest⟩)
      (hl : s.lock .queue = some t) (hq : s.fiberList = g :: l) :
      Step s { (s.run t (.loop w) (.loopCopy g :: rest)).release .queue with fiberList := l }
  | loopWake {s t w n rest} (ht : s.thr t = some ⟨.loop w, .loopPark :: rest⟩)
      (hs : s.sem w = n + 1) :
      Step s { s.run t (.loop w) (.loopSwitch :: rest) with sem := Function.update s.sem w n }
  | loopCopy {s t w g rest} (ht : s.thr t = some ⟨.loop w, .loopCopy g :: rest⟩) :
      Step s ((s.run t (.loop w) (.loopSwitch :: rest)).give g w)
  | loopSwitch {s t w x n rest} (ht : s.thr t = some ⟨.loop w, .loopSwitch :: rest⟩)
      (hd : s.threadFiber w = some ⟨x, n⟩) :
      Step s { s.run t x (cut n (s.susp x)) with
        susp := Function.update s.susp (.loop w) (.loopTop :: rest)
        saved := Function.update
          (Function.update s.saved (.loop w) (some (rest.length + 1))) x none
        threadFiber := Function.update s.threadFiber w (some ⟨.loop w, rest.length + 1⟩)
        stored := Function.update s.stored w none }
  -- the other deferred operations
  | unlock {s t c o rest} (ht : s.thr t = some ⟨c, .unlock o :: rest⟩) :
      Step s ((s.run t c rest).release (.object o))
  | recycle {s t c f rest} (ht : s.thr t = some ⟨c, .recycle f :: rest⟩)
      (hl : s.lock .disposed = some t) :
      Step s { (s.run t c rest).release .disposed with
        disposedFiberList := s.disposedFiberList ++ [f] }
  | timerAdd {s t c f tp rest} (ht : s.thr t = some ⟨c, .timerAdd f tp :: rest⟩)
      (hl : s.lock .timer = some t) :
      Step s { (s.run t c rest).release .timer with
        timeList := insertStable ⟨tp, s.inserts, f⟩ s.timeList, inserts := s.inserts + 1 }
  -- `timer_thread`: a wait on the empty store, and an expiry pass with the reading `cur`
  | timerWait {s t rest} (ht : s.thr t = some ⟨.timer, .timerTop :: rest⟩)
      (hl : s.lock .timer = some t) : Step s (s.release .timer)
  | expire {s t rest} (cur : Timespec) (ht : s.thr t = some ⟨.timer, .timerTop :: rest⟩)
      (hl : s.lock .timer = some t) (hcur : ∃ x ∈ s.timeList, x.key ≤ cur) :
      Step s { (s.run t .timer
          (.enqueueList ((upTo cur s.timeList).map Entry.val) :: .timerTop :: rest)).release .timer
        with timeList := after cur s.timeList }
  -- objects
  | object {s t f o op rest} (ht : s.thr t = some ⟨.fiber f, .objectOp o op :: rest⟩)
      (hl : s.lock (.object o) = some t) :
      Step s { s.run t (.fiber f) (((s.obj o).critical op f).2.next o f rest) with
        obj := Function.update s.obj o ((s.obj o).critical op f).1
        destroyed := if op = .destroy then Function.update s.destroyed o true else s.destroyed
        lock := if ((s.obj o).critical op f).2.holds then s.lock
          else Function.update s.lock (.object o) none }
  -- `fiber_spawn`
  | spawnPop {s t c f l rest} (ht : s.thr t = some ⟨c, .spawn :: rest⟩)
      (hl : s.lock .disposed = some t) (hq : s.disposedFiberList = f :: l) :
      Step s { (s.run t c (.queryMemory f :: rest)).release .disposed with
        disposedFiberList := l }
  | spawnEmpty {s t c rest} (ht : s.thr t = some ⟨c, .spawn :: rest⟩)
      (hl : s.lock .disposed = some t) (hq : s.disposedFiberList = []) :
      Step s ((s.run t c (.spawnNew :: rest)).release .disposed)
  | queryMemory {s t c f rest} (ht : s.thr t = some ⟨c, .queryMemory f :: rest⟩) :
      Step s { s.run t c (.spawnNew :: rest) with
        recycled := Function.update s.recycled f true }
  /-- The new fiber's frame and descriptor are written. -/
  | spawnNew {s t c rest} (g : Fid) (ht : s.thr t = some ⟨c, .spawnNew :: rest⟩)
      (hg : s.spawned g = false) :
      Step s { (s.run t c (.enqueue g :: rest)).setDesc g (some ⟨.fiber g, 1⟩) with
        susp := Function.update s.susp (.fiber g) [.user]
        saved := Function.update s.saved (.fiber g) (some 1)
        spawned := Function.update s.spawned g true }

/-- After `fiber_scheduler_init`: the main thread executes the main fiber, and its loop has an
initial frame; no other work thread has been started. -/
def State.start (obj : Oid → Object) : State where
  thr
    | .work 0 => some ⟨.fiber 0, [.user]⟩
    | .work (_ + 1) => none
    | .timer => some ⟨.timer, [.timerTop]⟩
  susp
    | .loop 0 => [.loopTop]
    | _ => []
  saved
    | .loop 0 => some 1
    | _ => none
  desc _ := none
  threadFiber
    | 0 => some ⟨.loop 0, 1⟩
    | _ + 1 => none
  stored _ := none
  fiberList := []
  idleThreadList := []
  disposedFiberList := []
  timeList := []
  inserts := 0
  sem _ := 0
  lock _ := none
  obj := obj
  destroyed _ := false
  spawned f := f = 0
  recycled _ := false

/-- The states reached by any interleaving on any number of work threads. -/
abbrev Reached : State → Prop :=
  Reachable (fun s => ∃ obj, (∀ o, (obj o).Fresh) ∧ s = .start obj) Step

end Sched
