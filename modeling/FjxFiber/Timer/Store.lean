import FjxFiber.Lib.Ring
import FjxFiber.Lib.Tree
import Mathlib.Order.Basic

/-!
# The timer store (`src/timer.c`)

`insertTimeNode` is `insert_time_node`, and `expire` the part of a pass of `timer_thread` between
its reading of the clock and the unlock of `timer->m`: both work on the splay tree of the timer
nodes, on the list through their `f.link`, and on the two cached nodes. The list operations and
those on the splay tree are parameters (`ListOps`, `Splay`). `none` stands for a null pointer that
is followed.
-/

set_option autoImplicit false

namespace Timer

open Lib

/-- `struct timespec`. -/
structure Timespec where
  tvSec : Int
  tvNsec : Int
  deriving DecidableEq, Repr

/-- `timespec_comp`. -/
def timespecComp (p q : Timespec) : Bool :=
  if p.tvSec ≠ q.tvSec then p.tvSec < q.tvSec else p.tvNsec < q.tvNsec

/-- The list nodes at hand: the headers `timer->time_list` and `awake_list`, and the `f.link` of a
timer node. -/
inductive Ptr (α : Type*)
  | timeList
  | awakeList
  | link (a : α)
  deriving DecidableEq, Repr

/-- A pointer that a tree node hangs from. -/
inductive Slot (α : Type*)
  | root
  | child (p : α) (side : Side)
  deriving DecidableEq, Repr

/-- `fjx_splay_node_link` and `fjx_splay_top`, as far as the timer relies on them. -/
structure Splay (α : Type*) [DecidableEq α] where
  nodeLink : α → Slot α → BinTree α → BinTree α
  /-- A slot that holds nothing is pointed to the new node, which has no children. -/
  nodeLink_root : ∀ {a}, nodeLink a .root .nil = .leaf a
  nodeLink_child : ∀ {a p side} {t : BinTree α}, t.slot p side = some .nil →
    nodeLink a (.child p side) t = t.setChild p side (.leaf a)
  top : α → BinTree α → BinTree α
  top_root : ∀ {a t}, a ∈ t.inorder → ∃ l r, top a t = .node l a r
  top_inorder : ∀ {a t}, a ∈ t.inorder → (top a t).inorder = t.inorder

/-- `struct fjx_fiber_timer__`, with the deadlines and the list links of all timer nodes. -/
structure FiberTimer (α : Type*) where
  timeTree : BinTree α
  minTime : Option α
  maxTime : Option α
  links : Links (Ptr α)
  tp : α → Timespec

variable {α : Type*} [DecidableEq α]

/-- Single rotations are a way to bring a node to the top. -/
def Splay.rotations (α : Type*) [DecidableEq α] : Splay α where
  nodeLink a slot t := match slot with
    | .root => .leaf a
    | .child p side => t.setChild p side (.leaf a)
  nodeLink_root := rfl
  nodeLink_child _ := rfl
  top a t := t.toRoot a
  top_root h := (BinTree.toRoot_spec h).imp fun _ h => h.imp fun _ h => h.1
  top_inorder h := by
    obtain ⟨l, r, h1, h2⟩ := BinTree.toRoot_spec h
    rw [h1, BinTree.inorder_node, h2]

/-- What a slot points to. -/
def Slot.target (t : BinTree α) : Slot α → Option (BinTree α)
  | .root => some t
  | .child p side => t.slot p side

/-- What `insert_time_node` leaves: the timer, the slot it linked the node to, and its result. -/
structure Inserted (α : Type*) where
  timer : FiberTimer α
  slot : Slot α
  earliest : Bool

section
variable (O : ListOps (Ptr α)) (S : Splay α)

/-- `time_comp`. -/
def timeComp (timer : FiberTimer α) (p q : α) : Bool := timespecComp (timer.tp p) (timer.tp q)

/-- `fiber_timer_init`. -/
def fiberTimerInit (timer : FiberTimer α) : FiberTimer α :=
  { timer with
    timeTree := .nil, minTime := none, maxTime := none, links := O.init .timeList timer.links }

/-- `insert_time_node`. -/
def insertTimeNode (node : α) (timer : FiberTimer α) : Option (Inserted α) :=
  if timer.timeTree = .nil then
    some {
      timer := { timer with
        links := O.add .timeList (.link node) timer.links
        timeTree := S.nodeLink node .root timer.timeTree
        minTime := some node
        maxTime := some node }
      slot := .root
      earliest := true }
  else do
    let minTime ← timer.minTime
    let maxTime ← timer.maxTime
    if timeComp timer node minTime then
      let slot := .child minTime .left
      some {
        timer := { timer with
          links := O.add .timeList (.link node) timer.links
          timeTree := S.top node (S.nodeLink node slot timer.timeTree)
          minTime := some node }
        slot
        earliest := true }
    else if !timeComp timer node maxTime then
      let slot := .child maxTime .right
      some {
        timer := { timer with
          links := O.addTail .timeList (.link node) timer.links
          timeTree := S.top node (S.nodeLink node slot timer.timeTree)
          maxTime := some node }
        slot
        earliest := false }
    else
      let (p, side) ← timer.timeTree.descend (timeComp timer node) none
      let slot := .child p side
      some {
        timer := { timer with
          links := if side = .left then O.addTail (.link p) (.link node) timer.links
            else O.add (.link p) (.link node) timer.links
          timeTree := S.top node (S.nodeLink node slot timer.timeTree) }
        slot
        earliest := false }

/-- A pass of `timer_thread` whose last reading of the clock, not before the first deadline, is
`cur`. The nodes it takes are on `awake_list`. -/
def expire (cur : Timespec) (timer : FiberTimer α) : Option (FiberTimer α) := do
  let links := O.init .awakeList timer.links
  let maxTime ← timer.maxTime
  if !timespecComp cur (timer.tp maxTime) then
    some { timer with
      links := O.replaceInit .timeList .awakeList links
      timeTree := .nil
      minTime := none
      maxTime := none }
  else
    let up ← timer.timeTree.upper (fun p => timespecComp cur (timer.tp p)) none
    let first := links.next .timeList
    let last := links.prev (.link up)
    let links := O.link .awakeList first links
    let links := O.link last .awakeList links
    let links := O.link .timeList (.link up) links
    some { timer with
      links
      timeTree := (S.top up timer.timeTree).setChild up .left .nil
      minTime := some up }

end

end Timer
