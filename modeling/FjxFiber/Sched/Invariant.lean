import FjxFiber.Sched.Model

/-!
# The invariant of the scheduler

It has four parts, each kept by a step as long as the others held before it: which context is
suspended where (`Contexts`), where the fibers are (`State.place`), where the work threads are
(`Threads`), and who holds the locks of the objects (`Locks`).
-/

set_option autoImplicit false

namespace Sched

open Lib Lib.StableQueue Timer

/-! ## Frames -/

/-- What `enqueue_fiber_list` has left of its two lists. -/
def leftFibers : Option (List Fid × List Wid) → List Fid
  | some (l, _) => l
  | none => []

def leftThreads : Option (List Fid × List Wid) → List Wid
  | some (_, ths) => ths
  | none => []

namespace Frame

/-- The fibers in the hands of a call. -/
def held : Frame → List Fid
  | queryMemory f | enqueue f | recycle f | timerAdd f _ | loopCopy f => [f]
  | copy src _ | push _ src | switch _ src => src.toList
  | store f _ k => f :: leftFibers k
  | signal _ k => leftFibers k
  | enqueueList l | pairUp l _ => l
  | _ => []

/-- The idle threads in the hands of a call. -/
def hands : Frame → List Wid
  | store _ w k | signal w k => w :: leftThreads k
  | pairUp _ ths | giveBack ths => ths
  | _ => []

/-- The caller has linked itself in an object, and is suspending itself under the object's lock. -/
def publishes : Frame → Option Oid
  | copy _ (.unlock o) | push (.unlock o) _ | switch (.unlock o) _ => some o
  | _ => none

/-- The object whose lock the thread holds until the deferred unlock. -/
def guards : Frame → Option Oid
  | unlock o => some o
  | fr => fr.publishes

/-- A frame of which nothing is said but what the call has in hand. -/
def plain : Frame → Bool
  | copy _ (.unlock _) | push _ _ | switch _ _ | unlock _ | signal _ _ | loopPark | loopSwitch =>
    false
  | _ => true

end Frame

/-- The outermost call of a context. -/
def base : Ctx → Frame
  | .fiber _ => .user
  | .loop _ => .loopTop
  | .timer => .timerTop

/-- The deferred operations that `f` pushes before it switches away. -/
def Deferred.By (f : Fid) : Deferred → Prop
  | enqueue g | recycle g | timerAdd g _ => g = f
  | unlock _ => True

/-- The calls that may be made on top of the outermost call of a context. -/
def Frame.In (c : Ctx) : Frame → Prop
  | channelTest _ _ | objectOp _ _ | spawn | queryMemory _ | spawnNew | sleepTest _ =>
    ∃ f, c = .fiber f
  | getAvailable d => ∃ f, c = .fiber f ∧ d.By f ∧ ∀ o, d ≠ .unlock o
  | copy _ d | push d _ | switch d _ => ∃ f, c = .fiber f ∧ d.By f
  | enqueue _ | store _ _ _ | signal _ _ | enqueueList _ | pairUp _ _ | giveBack _ | unlock _
  | recycle _ | timerAdd _ _ => True
  | user | loopTop | loopPark | loopCopy _ | loopSwitch | timerTop => False

/-- The frames of a context that is being executed. -/
inductive Shape : Ctx → List Frame → Prop
  | outermost (c : Ctx) : Shape c [base c]
  | park (w : Wid) : Shape (.loop w) [.loopPark]
  | copy (w : Wid) (g : Fid) : Shape (.loop w) [.loopCopy g]
  | switch (w : Wid) : Shape (.loop w) [.loopSwitch]
  | call (c : Ctx) (fr : Frame) (h : fr.In c) : Shape c [fr, base c]

/-- The contexts that a thread may execute. -/
def Ctx.On (t : Thr) : Ctx → Prop
  | fiber _ => ∃ w, t = .work w
  | loop w => t = .work w
  | timer => t = .timer

/-- The context that a switch on `t` goes to. -/
def target (t : Thr) : Option Fid → Ctx
  | some g => .fiber g
  | none => match t with
    | .work w => .loop w
    | .timer => .timer

/-! ## Fibers -/

/-- The fiber that is executed, unless it has linked itself and is suspending itself. -/
def execOf : Ctx → List Frame → List Fid
  | .fiber f, fr :: _ => if fr.publishes.isSome then [] else [f]
  | .fiber f, [] => [f]
  | _, _ => []

/-- The fibers a thread has: the one it executes, and those in the hands of its calls. -/
def tokens (c : Ctx) (F : List Frame) : List Fid := execOf c F ++ F.flatMap Frame.held

/-- Where a fiber may be linked, or stored for a thread that is to switch to it. -/
inductive Home
  | queue
  | wait (o : Oid)
  | timer
  | disposed
  | assigned (w : Wid)
  deriving DecidableEq

namespace State

def linked (s : State) : Home → List Fid
  | .queue => s.fiberList
  | .wait o => (s.obj o).waiters
  | .timer => s.timeList.map Entry.val
  | .disposed => s.disposedFiberList
  | .assigned w => (s.stored w).toList

def place (s : State) : Thr ⊕ Home → List Fid
  | .inl t => match s.thr t with
    | some r => tokens r.ctx r.frames
    | none => []
  | .inr p => s.linked p

/-- The fibers that were spawned and whose stack has not been handed out again. -/
def Live (s : State) (f : Fid) : Prop := s.spawned f = true ∧ s.recycled f = false

/-- Some thread executes `c`. -/
def Runs (s : State) (c : Ctx) : Prop := ∃ t F, s.thr t = some ⟨c, F⟩

end State

/-! ## Threads -/

/-- Where a work thread may be. -/
inductive Post
  /-- It executes something other than its wait for work. -/
  | busy (w : Wid)
  | idle
  /-- Taken from `idle_thread_list` by a call on the thread `t`. -/
  | inHands (t : Thr)
  | signalled (w : Wid)
  deriving DecidableEq

/-- The thread waits on its semaphore. -/
def Running.parked (r : Running) : Bool :=
  match r.frames with
  | .loopPark :: _ => true
  | _ => false

namespace State

def post (s : State) : Post → List Wid
  | .busy w => match s.thr (.work w) with
    | some r => if r.parked then [] else [w]
    | none => []
  | .idle => s.idleThreadList
  | .inHands t => match s.thr t with
    | some r => r.frames.flatMap Frame.hands
    | none => []
  | .signalled w => List.replicate (s.sem w) w

/-- `enqueue_fiber` or `enqueue_fiber_list` has stored a fiber for `w` and is about to signal it. -/
def Signals (s : State) (w : Wid) : Prop :=
  ∃ t c k rest, s.thr t = some ⟨c, .signal w k :: rest⟩

/-- The loop of `w` is about to switch to the fiber stored for it. -/
def Switches (s : State) (w : Wid) : Prop :=
  ∃ t rest, s.thr t = some ⟨.loop w, .loopSwitch :: rest⟩

end State

/-! ## The parts -/

/-- **Contexts**: a suspended context has the stack it switched away with, and its descriptor says
so. -/
structure Contexts (s : State) : Prop where
  shape : ∀ t c F, s.thr t = some ⟨c, F⟩ → Shape c F ∧ c.On t
  /-- No context is executed twice, nor executed while it is suspended. -/
  sole : ∀ t t' c F F', s.thr t = some ⟨c, F⟩ → s.thr t' = some ⟨c, F'⟩ → t = t'
  running : ∀ t c F, s.thr t = some ⟨c, F⟩ → s.saved c = none
  fiber : ∀ f n, s.saved (.fiber f) = some n → s.desc f = some ⟨.fiber f, n⟩
  present : ∀ f, s.spawned f = true → (∃ n, s.saved (.fiber f) = some n) ∨ s.Runs (.fiber f)
  loop : ∀ w c F, s.thr (.work w) = some ⟨c, F⟩ → c ≠ .loop w →
    s.saved (.loop w) = some 1 ∧ s.threadFiber w = some ⟨.loop w, 1⟩
  unborn : ∀ w, s.thr (.work w) = none → s.saved (.loop w) = none
  /-- A suspended context has one frame; on top of it lies what a call that is about to switch to
  it has pushed. -/
  stack : ∀ c n, s.saved c = some n → n = 1 ∧ (s.susp c = [base c] ∨
    ∃ t f d src rest, s.thr t = some ⟨.fiber f, .switch d src :: rest⟩ ∧ target t src = c)
  /-- The target of a switch is suspended, with nothing pushed yet. -/
  aim : ∀ t f d src rest, s.thr t = some ⟨.fiber f, .push d src :: rest⟩ →
    s.desc f = some ⟨target t src, 1⟩ ∧ s.saved (target t src) = some 1 ∧
      s.susp (target t src) = [base (target t src)]
  aimed : ∀ t f d src rest, s.thr t = some ⟨.fiber f, .switch d src :: rest⟩ →
    s.desc f = some ⟨target t src, 2⟩ ∧ s.saved (target t src) = some 1 ∧
      s.susp (target t src) = [d.frame, base (target t src)]
  stored : ∀ w g, s.stored w = some g → s.threadFiber w = some ⟨.fiber g, 1⟩

/-- **Locks**: a caller that suspends itself under an object's lock has linked itself, and its
thread holds the lock until the deferred unlock. -/
structure Locks (s : State) : Prop where
  held : ∀ t c fr rest o, s.thr t = some ⟨c, fr :: rest⟩ → fr.guards = some o →
    s.lock (.object o) = some t
  linked : ∀ t f fr rest o, s.thr t = some ⟨.fiber f, fr :: rest⟩ → fr.publishes = some o →
    f ∈ (s.obj o).waiters

/-- **Threads**: every work thread that was started is at one post, and a fiber is stored for it
from the store to its switch. -/
structure Threads (s : State) : Prop where
  placed : Placed s.post fun w => s.thr (.work w) ≠ none
  stored : ∀ w, s.stored w ≠ none ↔ s.Signals w ∨ 0 < s.sem w ∨ s.Switches w
  /-- No fiber is runnable while a thread is idle. -/
  queue : s.fiberList = [] ∨ s.idleThreadList = []

structure Inv (s : State) : Prop where
  contexts : Contexts s
  fibers : Placed s.place s.Live
  threads : Threads s
  locks : Locks s
  recycled : ∀ f, s.recycled f = true → s.spawned f = true

/-! ## The frames of a context -/

/-- A call made by another call. -/
def Frame.inner : Frame → Bool
  | user | loopTop | loopPark | loopCopy _ | loopSwitch | timerTop => false
  | _ => true

namespace Shape

variable {c : Ctx} {fr : Frame} {rest : List Frame}

theorem outer (h : Shape c (fr :: rest)) (hfr : fr.inner = false) : rest = [] := by
  cases h with
  | outermost | park | copy | switch => rfl
  | call _ _ h => cases fr <;> first | exact h.elim | cases hfr

theorem inner (h : Shape c (fr :: rest)) (hfr : fr.inner = true) : rest = [base c] ∧ fr.In c := by
  cases h with
  | outermost => cases c <;> cases hfr
  | park | copy | switch => cases hfr
  | call _ _ h => exact ⟨rfl, h⟩

theorem parked (h : Shape c (.loopPark :: rest)) : ∃ w, c = .loop w := by
  rcases c with f | w | _
  · nomatch h
  · exact ⟨w, rfl⟩
  · nomatch h

theorem ne_nil (h : Shape c []) : False := nomatch h

/-- A call returns. -/
theorem pop (h : Shape c (fr :: rest)) (hfr : fr.inner = true) : Shape c rest := by
  rw [(h.inner hfr).1]
  exact .outermost c

/-- A call goes on. -/
theorem next (h : Shape c (fr :: rest)) (hfr : fr.inner = true) {fr' : Frame}
    (hin : fr.In c → fr'.In c) : Shape c (fr' :: rest) := by
  obtain ⟨rfl, hfr⟩ := h.inner hfr
  exact .call c fr' (hin hfr)

/-- A fiber makes a call. -/
theorem enter {f : Fid} (h : Shape (.fiber f) (.user :: rest)) (hin : fr.In (.fiber f)) :
    Shape (.fiber f) (fr :: .user :: rest) := by
  rw [h.outer rfl]
  exact .call (.fiber f) fr hin

end Shape

theorem Deferred.frame_in (d : Deferred) (c : Ctx) : d.frame.In c := by
  cases d <;> exact trivial

theorem Frame.guards_of_publishes {fr : Frame} {o : Oid} (h : fr.publishes = some o) :
    fr.guards = some o := by
  cases fr <;> first | exact h | cases h

@[simp] theorem base_plain (c : Ctx) : (base c).plain = true := by cases c <;> rfl

theorem head_cons {P : Frame → Prop} {fr : Frame} {rest : List Frame} (h : P fr) :
    ∀ x ∈ (fr :: rest).head?, P x := fun x hx => by
  cases hx
  exact h

/-! ## The tokens of a context -/

/-- The fiber that a context is. -/
def Ctx.own : Ctx → List Fid
  | fiber f => [f]
  | _ => []

@[simp] theorem base_held (c : Ctx) : (base c).held = [] := by cases c <;> rfl

@[simp] theorem base_hands (c : Ctx) : (base c).hands = [] := by cases c <;> rfl

@[simp] theorem base_publishes (c : Ctx) : (base c).publishes = none := by cases c <;> rfl

theorem execOf_cons {c : Ctx} {fr : Frame} (h : fr.publishes = none) (rest : List Frame) :
    execOf c (fr :: rest) = c.own := by
  cases c <;> simp [execOf, Ctx.own, h]

theorem tokens_base (c : Ctx) : tokens c [base c] = c.own := by
  simp [tokens, execOf_cons]

theorem tokens_call {c : Ctx} {fr : Frame} (h : fr.publishes = none) :
    tokens c [fr, base c] = c.own ++ fr.held := by
  simp [tokens, execOf_cons h]

theorem tokens_publish {f : Fid} {fr : Frame} (h : fr.publishes ≠ none) :
    tokens (.fiber f) [fr, .user] = fr.held := by
  simp [tokens, execOf, Option.isSome_iff_ne_none.2 h, Frame.held]

theorem tokens_loop (w : Wid) (fr : Frame) : tokens (.loop w) [fr] = fr.held := by
  simp [tokens, execOf]

@[simp] theorem Deferred.frame_publishes (d : Deferred) : d.frame.publishes = none := by
  cases d <;> rfl

@[simp] theorem Deferred.frame_hands (d : Deferred) : d.frame.hands = [] := by
  cases d <;> rfl

end Sched
