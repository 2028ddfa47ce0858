import FjxFiber.Lib.Placement
import FjxFiber.Lib.Reach
import Mathlib.Logic.Function.Basic

/-!
# Fiber channels (`src/channel.c`)

`sendImpl`, `receiveImpl`, `closeImpl` and `destroyImpl` are what the four operations do to the
channel while they hold `ch->lock`; `Step` interleaves the pieces of any number of calls: the
unlocked test of `ch->closed`, the acquisition, the critical section, the release of the lock by
the deferred operation of a blocked caller, the copy of the item, the write of the peer's state,
the switch to the peer, the deferred enqueue of the caller, and the loops of close and destroy.

A call is an `i : ι`; its kind and its `data` pointer are parameters. No call starts, and none
tests `closed` or takes the lock, once destroy has taken it. Destroy frees the channel, and freed
memory may be used for something else (`Step.reuse`): of the fields of a freed channel only
`item_size` is still read.
-/

set_option autoImplicit false

namespace Channel

open Lib

variable {ι : Type*}

/-! ## The channel -/

def itemInit : Int := -1
def success : Int := 0
def closed : Int := 1
def destroyed : Int := 2

inductive Kind
  | send
  | receive
  | close
  | destroy
  deriving DecidableEq, Repr

/-- The calls: what each does, its `data` argument, and the item size of the channel. -/
structure Calls (ι : Type*) where
  kind : ι → Kind
  data : ι → Nat
  itemSize : Nat

/-- `struct fjx_fiber_channel__`, less its spinlock; a `channel_item` is named by its call. -/
structure FiberChannel (ι : Type*) where
  ritemList : List ι
  witemList : List ι
  itemSize : Nat
  closed : Bool
  deriving DecidableEq, Repr

/-- `fiber_channel_create`. -/
def FiberChannel.create (itemSize : Nat) : FiberChannel ι :=
  { ritemList := [], witemList := [], itemSize, closed := false }

/-- How a call goes on after its critical section. -/
inductive Next (ι : Type*)
  /-- The lock is released, and the call returns `r`. -/
  | ret (r : Int)
  /-- The lock is released, and the call returns nothing. -/
  | stop
  /-- The caller's item is linked; the lock is released once it has been suspended. -/
  | block
  /-- The lock is released; the item of `peer` has been popped. -/
  | pop (peer : ι)
  /-- The lock is released; the items of `items` have been moved to a local list. -/
  | close (items : List ι)
  /-- The lock is released; the items have been moved, and the channel is to be freed. -/
  | destroy (items : List ι)

namespace FiberChannel

/-- `fiber_channel_send_impl` under `ch->lock`. -/
def sendImpl (i : ι) (ch : FiberChannel ι) : FiberChannel ι × Next ι :=
  if !ch.closed then
    match ch.ritemList with
    | it :: rest => ({ ch with ritemList := rest }, .pop it)
    | [] => ({ ch with witemList := ch.witemList ++ [i] }, .block)
  else (ch, .ret Channel.closed)

/-- `fiber_channel_receive_impl` under `ch->lock`. -/
def receiveImpl (i : ι) (ch : FiberChannel ι) : FiberChannel ι × Next ι :=
  match ch.witemList with
  | [] =>
    if !ch.closed then ({ ch with ritemList := ch.ritemList ++ [i] }, .block)
    else (ch, .ret Channel.closed)
  | it :: rest => ({ ch with witemList := rest }, .pop it)

/-- `fiber_channel_close_impl` under `ch->lock`. -/
def closeImpl (ch : FiberChannel ι) : FiberChannel ι × Next ι :=
  if !ch.closed then ({ ch with ritemList := [], closed := true }, .close ch.ritemList)
  else (ch, .stop)

/-- `fiber_channel_destroy_impl` under `ch->lock`. -/
def destroyImpl (ch : FiberChannel ι) : FiberChannel ι × Next ι :=
  let ch := { ch with closed := true }
  if ch.ritemList ≠ [] then ({ ch with ritemList := [] }, .destroy ch.ritemList)
  else if ch.witemList ≠ [] then ({ ch with witemList := [] }, .destroy ch.witemList)
  else (ch, .destroy [])

/-- The critical section of a call. -/
def impl (kind : Kind) (i : ι) (ch : FiberChannel ι) : FiberChannel ι × Next ι :=
  match kind with
  | .send => ch.sendImpl i
  | .receive => ch.receiveImpl i
  | .close => ch.closeImpl
  | .destroy => ch.destroyImpl

end FiberChannel

/-! ## The calls -/

/-- Where a call stands. -/
inductive Pc (ι : Type*)
  | fresh
  /-- Send and close: about to test `ch->closed` without the lock. -/
  | test
  | want
  | inside
  /-- Its item is linked and it is suspending itself; the lock is released on another stack. -/
  | publishing
  | waiting
  /-- About to copy the item between its own buffer and the peer's. -/
  | popped (peer : ι)
  /-- About to write the peer's state. -/
  | copied (peer : ι)
  /-- About to switch to the peer. -/
  | marked (peer : ι)
  /-- Switched away, not enqueued yet. -/
  | switched
  /-- Switched to by `g`, about to run the deferred enqueue of `g`. -/
  | enqueueing (g : ι)
  /-- About to return its item's state. -/
  | resumed
  /-- Enqueued, about to return `CHANNEL_SUCCESS`. -/
  | ready
  /-- Destroy: about to free the channel. -/
  | freeing (items : List ι)
  /-- Close and destroy: writing the states of the items. -/
  | marking (todo items : List ι)
  /-- Close and destroy: resuming the fibers of the items. -/
  | waking (items : List ι)
  | done (r : Int)
  | finished
  deriving DecidableEq, Repr

namespace Pc

/-- The caller's item is linked, or popped and not resumed yet. -/
def blocked : Pc ι → Bool
  | publishing | waiting => true
  | _ => false

def locked : Pc ι → Bool
  | inside | publishing => true
  | _ => false

/-- The suspended callers in the hands of the call. -/
def held : Pc ι → List ι
  | popped j | copied j | marked j => [j]
  | freeing items | waking items => items
  | marking todo items => items ++ todo
  | _ => []

/-- The next step of the call reads `ch->item_size` after the lock was released. -/
def transferring : Pc ι → Bool
  | popped _ => true
  | _ => false

/-- The call has not taken the lock yet. -/
def early : Pc ι → Bool
  | fresh | test | want => true
  | _ => false

@[simp] theorem blocked_eq :
    (fresh : Pc ι).blocked = false ∧ (test : Pc ι).blocked = false ∧ (want : Pc ι).blocked = false ∧
    (inside : Pc ι).blocked = false ∧ (publishing : Pc ι).blocked = true ∧
    (waiting : Pc ι).blocked = true ∧ (∀ j, (popped j : Pc ι).blocked = false) ∧
    (∀ j, (copied j : Pc ι).blocked = false) ∧ (∀ j, (marked j : Pc ι).blocked = false) ∧
    (switched : Pc ι).blocked = false ∧ (∀ j, (enqueueing j : Pc ι).blocked = false) ∧
    (resumed : Pc ι).blocked = false ∧ (ready : Pc ι).blocked = false ∧
    (∀ l, (freeing l : Pc ι).blocked = false) ∧ (∀ l l', (marking l l' : Pc ι).blocked = false) ∧
    (∀ l, (waking l : Pc ι).blocked = false) ∧ (∀ r, (done r : Pc ι).blocked = false) ∧
    (finished : Pc ι).blocked = false := by
  simp [blocked]

@[simp] theorem locked_eq :
    (fresh : Pc ι).locked = false ∧ (test : Pc ι).locked = false ∧ (want : Pc ι).locked = false ∧
    (inside : Pc ι).locked = true ∧ (publishing : Pc ι).locked = true ∧
    (waiting : Pc ι).locked = false ∧ (∀ j, (popped j : Pc ι).locked = false) ∧
    (∀ j, (copied j : Pc ι).locked = false) ∧ (∀ j, (marked j : Pc ι).locked = false) ∧
    (switched : Pc ι).locked = false ∧ (∀ j, (enqueueing j : Pc ι).locked = false) ∧
    (resumed : Pc ι).locked = false ∧ (ready : Pc ι).locked = false ∧
    (∀ l, (freeing l : Pc ι).locked = false) ∧ (∀ l l', (marking l l' : Pc ι).locked = false) ∧
    (∀ l, (waking l : Pc ι).locked = false) ∧ (∀ r, (done r : Pc ι).locked = false) ∧
    (finished : Pc ι).locked = false := by
  simp [locked]

@[simp] theorem held_eq :
    (fresh : Pc ι).held = [] ∧ (test : Pc ι).held = [] ∧ (want : Pc ι).held = [] ∧
    (inside : Pc ι).held = [] ∧ (publishing : Pc ι).held = [] ∧ (waiting : Pc ι).held = [] ∧
    (∀ j, (popped j : Pc ι).held = [j]) ∧ (∀ j, (copied j : Pc ι).held = [j]) ∧
    (∀ j, (marked j : Pc ι).held = [j]) ∧ (switched : Pc ι).held = [] ∧
    (∀ j, (enqueueing j : Pc ι).held = []) ∧ (resumed : Pc ι).held = [] ∧ (ready : Pc ι).held = [] ∧
    (∀ l, (freeing l : Pc ι).held = l) ∧ (∀ l l', (marking l l' : Pc ι).held = l' ++ l) ∧
    (∀ l, (waking l : Pc ι).held = l) ∧ (∀ r, (done r : Pc ι).held = []) ∧
    (finished : Pc ι).held = [] := by
  simp [held]

@[simp] theorem transferring_eq :
    (fresh : Pc ι).transferring = false ∧ (test : Pc ι).transferring = false ∧
    (want : Pc ι).transferring = false ∧ (inside : Pc ι).transferring = false ∧
    (publishing : Pc ι).transferring = false ∧ (waiting : Pc ι).transferring = false ∧
    (∀ j, (popped j : Pc ι).transferring = true) ∧
    (∀ j, (copied j : Pc ι).transferring = false) ∧
    (∀ j, (marked j : Pc ι).transferring = false) ∧ (switched : Pc ι).transferring = false ∧
    (∀ j, (enqueueing j : Pc ι).transferring = false) ∧
    (resumed : Pc ι).transferring = false ∧ (ready : Pc ι).transferring = false ∧
    (∀ l, (freeing l : Pc ι).transferring = false) ∧
    (∀ l l', (marking l l' : Pc ι).transferring = false) ∧
    (∀ l, (waking l : Pc ι).transferring = false) ∧ (∀ r, (done r : Pc ι).transferring = false) ∧
    (finished : Pc ι).transferring = false := by
  simp [transferring]

@[simp] theorem early_eq :
    (fresh : Pc ι).early = true ∧ (test : Pc ι).early = true ∧ (want : Pc ι).early = true ∧
    (inside : Pc ι).early = false ∧ (publishing : Pc ι).early = false ∧
    (waiting : Pc ι).early = false ∧ (∀ j, (popped j : Pc ι).early = false) ∧
    (∀ j, (copied j : Pc ι).early = false) ∧ (∀ j, (marked j : Pc ι).early = false) ∧
    (switched : Pc ι).early = false ∧ (∀ j, (enqueueing j : Pc ι).early = false) ∧
    (resumed : Pc ι).early = false ∧ (ready : Pc ι).early = false ∧
    (∀ l, (freeing l : Pc ι).early = false) ∧ (∀ l l', (marking l l' : Pc ι).early = false) ∧
    (∀ l, (waking l : Pc ι).early = false) ∧ (∀ r, (done r : Pc ι).early = false) ∧
    (finished : Pc ι).early = false := by
  simp [early]

end Pc

abbrev Memory := Nat → UInt8

/-- `memcpy(dst, src, n)`. -/
def memcpy (dst src n : Nat) (mem : Memory) : Memory := fun a =>
  if dst ≤ a ∧ a < dst + n then mem (src + (a - dst)) else mem a

/-- A transfer that was made, with the memory before and after. -/
structure Copy (ι : Type*) where
  sender : ι
  receiver : ι
  before : Memory
  after : Memory

structure State (ι : Type*) where
  ch : FiberChannel ι
  lock : Option ι
  pc : ι → Pc ι
  /-- The `state` of each call's item. -/
  itemState : ι → Int
  mem : Memory
  /-- Destroy has taken the lock. -/
  closing : Bool
  freed : Bool
  /-- Ghost: the acquisitions of the lock, and the sections run, in order. -/
  acqs : List ι
  secs : List ι
  /-- Ghost: the senders and receivers of which one popped the other, in order. -/
  pairs : List (ι × ι)
  copies : List (Copy ι)
  /-- Ghost: the items that close or destroy moved, by call; who resumed whom, in order; and the
  call that closed the channel, with the senders blocked then and the number of pairs before. -/
  taken : ι → List ι
  resumes : List (ι × ι)
  closer : Option (ι × List ι × Nat)

/-- The state a woken caller finds: close and destroy write different ones. -/
def wakeState : Kind → Int
  | .destroy => destroyed
  | _ => closed

variable [DecidableEq ι]

namespace State

def goto (s : State ι) (i : ι) (p : Pc ι) : State ι := { s with pc := Function.update s.pc i p }

def setItem (s : State ι) (i : ι) (v : Int) : State ι :=
  { s with itemState := Function.update s.itemState i v }

/-- The pair that `i` makes with the call it popped. -/
def pairOf (c : Calls ι) (i j : ι) : ι × ι := if c.kind i = .send then (i, j) else (j, i)

/-- The state after the section of `i`. -/
def after (c : Calls ι) (s : State ι) (i : ι) : State ι :=
  let r := s.ch.impl (c.kind i) i
  let closer := if s.ch.closed then s.closer else some (i, s.ch.witemList, s.pairs.length)
  let s := { s with ch := r.1, secs := s.secs ++ [i] }
  match r.2 with
  | .ret v => { s.goto i (.done v) with lock := none }
  | .stop => { s.goto i .finished with lock := none }
  | .block => s.goto i .publishing
  | .pop j => { s.goto i (.popped j) with lock := none, pairs := s.pairs ++ [pairOf c i j] }
  | .close items => { s.goto i (.marking items []) with
      lock := none, taken := Function.update s.taken i items, closer }
  | .destroy items => { s.goto i (.freeing items) with
      lock := none, taken := Function.update s.taken i items, closer }

/-- The item is copied from the sender's buffer to the receiver's. -/
def copy (c : Calls ι) (s : State ι) (i j : ι) : State ι :=
  let (a, b) := pairOf c i j
  let mem := memcpy (c.data b) (c.data a) s.ch.itemSize s.mem
  { s.goto i (.copied j) with mem, copies := s.copies ++ [⟨a, b, s.mem, mem⟩] }

end State

/-- The first step of a call: send and close begin with an unlocked test. -/
def Kind.entry : Kind → Pc ι
  | .send | .close => .test
  | .receive | .destroy => .want

/-- Where the unlocked test leads on a closed channel. -/
def Kind.refused : Kind → Pc ι
  | .send => .done Channel.closed
  | _ => .finished

inductive Step (c : Calls ι) : State ι → State ι → Prop
  | call {s} (i : ι) (hpc : s.pc i = .fresh) (hopen : s.closing = false) :
      Step c s ((s.goto i (c.kind i).entry).setItem i itemInit)
  | test {s} (i : ι) (hpc : s.pc i = .test) (hopen : s.closing = false) :
      Step c s (s.goto i (if s.ch.closed then (c.kind i).refused else .want))
  | acquire {s} (i : ι) (hpc : s.pc i = .want) (hlock : s.lock = none)
      (hopen : s.closing = false) :
      Step c s { s.goto i .inside with
        lock := some i, acqs := s.acqs ++ [i], closing := c.kind i = .destroy }
  | impl {s} (i : ι) (hpc : s.pc i = .inside) : Step c s (s.after c i)
  | publish {s} (i : ι) (hpc : s.pc i = .publishing) :
      Step c s { s.goto i .waiting with lock := none }
  | copy {s} (i j : ι) (hpc : s.pc i = .popped j) : Step c s (s.copy c i j)
  | mark {s} (i j : ι) (hpc : s.pc i = .copied j) :
      Step c s ((s.goto i (.marked j)).setItem j success)
  | switch {s} (i j : ι) (hpc : s.pc i = .marked j) :
      Step c s { (s.goto j (.enqueueing i)).goto i .switched with resumes := s.resumes ++ [(i, j)] }
  | enqueue {s} (j i : ι) (hpc : s.pc j = .enqueueing i) :
      Step c s ((s.goto i .ready).goto j .resumed)
  | ready {s} (i : ι) (hpc : s.pc i = .ready) : Step c s (s.goto i (.done success))
  | ret {s} (i : ι) (hpc : s.pc i = .resumed) : Step c s (s.goto i (.done (s.itemState i)))
  | free {s} (i : ι) (items : List ι) (hpc : s.pc i = .freeing items) :
      Step c s { s.goto i (.marking items []) with freed := true }
  | setState {s} (i g : ι) (todo items : List ι) (hpc : s.pc i = .marking (g :: todo) items) :
      Step c s ((s.goto i (.marking todo (items ++ [g]))).setItem g (wakeState (c.kind i)))
  | enqueueList {s} (i : ι) (items : List ι) (hpc : s.pc i = .marking [] items) :
      Step c s (s.goto i (.waking items))
  | wake {s} (i g : ι) (items : List ι) (hpc : s.pc i = .waking (g :: items)) :
      Step c s { (s.goto g .resumed).goto i (.waking items) with resumes := s.resumes ++ [(i, g)] }
  | woken {s} (i : ι) (hpc : s.pc i = .waking []) : Step c s (s.goto i .finished)
  /-- The callers' own code writes memory. -/
  | user {s} (mem : Memory) : Step c s { s with mem }
  /-- The memory of a freed channel is used again. -/
  | reuse {s} (n : Nat) (hfreed : s.freed = true) :
      Step c s { s with ch := { s.ch with itemSize := n } }

/-- A channel before the first call. -/
def State.start (c : Calls ι) (mem : Memory) : State ι :=
  { ch := .create c.itemSize, lock := none, pc := fun _ => .fresh, itemState := fun _ => itemInit,
    mem, closing := false, freed := false, acqs := [], secs := [], pairs := [], copies := [],
    taken := fun _ => [], resumes := [], closer := none }

/-- The states of a channel under any interleaving of the calls. -/
abbrev Reached (c : Calls ι) : State ι → Prop :=
  Reachable (fun s => ∃ mem, s = .start c mem) (Step c)

end Channel
