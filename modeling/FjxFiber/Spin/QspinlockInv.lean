import FjxFiber.Spin.Qspinlock

/-!
# The invariant of `fjx_qspinlock`

The calls that wait, and the one at the head until it has found its successor, are a queue over
`next`. One thread at most is past its wait in `fjx_mcslock_lock` and has not left
`fjx_mcslock_unlock` (`Active`). It may wait for the flag, which another thread holds that has left
the queue before (`Flag`). What each thread knows is said by `At`, and `Kept` says which steps of
the others leave it alone.
-/

set_option autoImplicit false

namespace Spin.Qspinlock

open Lib Lib.StackNodes

variable {ι A : Type*}

/-! ## The queue -/

/-- The call is in the queue: it has exchanged, and does not know its successor yet. -/
def Pc.queued : Pc ι A → Option (Ref ι A)
  | link mm _ | awaitNode mm | awaitLock mm | setLocked mm | loadNext mm | compareExchange mm
  | awaitNext mm => some mm
  | _ => none

/-- The call has the lock, and is in the queue. -/
def Pc.acquired : Pc ι A → Option (Ref ι A)
  | loadNext mm | compareExchange mm | awaitNext mm => some mm
  | _ => none

def Pc.links : Pc ι A → Option (Ptr ι A)
  | link _ prev => some prev
  | _ => none

/-- The queue in `next`. -/
def layout : Layout ι A (Mcslock ι A) (Pc ι A) where
  tail := Mcslock.next
  link := Mcslock.next
  unset := .null
  queued := Pc.queued
  links := Pc.links
  ref_ne_unset _ h := by cases h

/-! ## The flag -/

/-- The flag is set for the one thread that holds the lock. -/
structure Flag (s : State ι A) : Prop where
  one : ∀ t u, (s.pc t).Holds → (s.pc u).Holds → t = u
  locked : s.lock.locked = 0 ∧ (∀ t, ¬ (s.pc t).Holds) ∨ s.lock.locked = 1 ∧ ∃ t, (s.pc t).Holds

/-! ## What is known at each access -/

/-- Past its wait in `fjx_mcslock_lock`, up to the last access of `fjx_mcslock_unlock`. -/
def Active (s : State ι A) : Pc ι A → Prop
  | .awaitLock _ | .setLocked _ | .loadNext _ | .compareExchange _ | .awaitNext _ | .pass _ _ =>
      True
  | .awaitNode mm => (s.mem mm.addr).locked ≠ 0
  | _ => False

/-- Who gets the queue next: the head of it, which waits in its node. -/
def Succ (s : State ι A) (q : List (Ref ι A)) (next : Ptr ι A) : Prop :=
  ∃ y, next = .node y ∧ q.head? = some y ∧ s.pc y.thread = .awaitNode y ∧
    (s.mem y.addr).locked = 0

def At (s : State ι A) (q : List (Ref ι A)) : Pc ι A → Prop
  | .out | .initNext _ | .held => True
  | .initLocked mm => (s.mem mm.addr).next = .null
  | .exchange mm => (s.mem mm.addr).next = .null ∧ (s.mem mm.addr).locked = 0
  | .link mm prev => (s.mem mm.addr).locked = 0 ∧ ∃ x, prev = .node x
  | .awaitNode mm => (s.mem mm.addr).locked ≠ 0 → q.head? = some mm
  | .awaitLock mm | .loadNext mm | .compareExchange mm | .awaitNext mm => q.head? = some mm
  | .setLocked mm => q.head? = some mm ∧ s.lock.locked = 0
  | .pass _ next => Succ s q next

section
variable {s : State ι A} {q : List (Ref ι A)} {p : Pc ι A} {mm : Ref ι A}

theorem node_of_queued (hq : p.queued = some mm) : p.node = some mm := by
  cases p <;> first | exact hq | cases hq

theorem active_of_acquired (hp : p.acquired = some mm) : Active s p := by
  cases p <;> first | exact trivial | cases hp

theorem active_of_holdsQueue (hp : p.HoldsQueue) : Active s p := by
  cases p <;> first | exact trivial | exact hp.elim

end

variable [DecidableEq ι] [DecidableEq A]

/-- **The invariant**: `q` is the queue, and `w` the call in it that has the lock. -/
structure Inv (s : State ι A) (q : List (Ref ι A)) (w : Option (Ref ι A)) : Prop where
  queue : Queued qspinlock layout s q
  flag : Flag s
  acquired : ∀ r, w = some r ↔ (s.pc r.thread).acquired = some r
  fifo : ∃ e, s.entered = e ++ w.toList ∧ s.exchanged = e ++ q
  one : ∀ t u, Active s (s.pc t) → Active s (s.pc u) → t = u
  known : ∀ t, At s q (s.pc t)

variable {s s' : State ι A} {q q' : List (Ref ι A)} {w w' : Option (Ref ι A)} {t : ι} {p : Pc ι A}
  {mm : Ref ι A}

theorem Inv.start (mem : A → Mcslock ι A) : Inv (qspinlock.start init mem) [] none where
  queue := .start lawful (fun _ _ => node_of_queued) mem rfl
  flag := ⟨fun _ _ ht => ht.elim, .inl ⟨rfl, fun _ ht => ht.elim⟩⟩
  acquired r := by simp [Program.start, qspinlock, Pc.acquired]
  fifo := ⟨[], rfl, rfl⟩
  one t u ht := ht.elim
  known t := trivial

/-! ## What a step leaves alone -/

section
omit [DecidableEq A]

/-- A step that is neither the store of `lock->locked` in `fjx_qspinlock_lock` nor that in
`fjx_qspinlock_unlock`. -/
theorem Flag.stay (h : Flag s) (hpc : s'.pc = Function.update s.pc t p)
    (hlocked : s'.lock.locked = s.lock.locked) (hp : p.Holds = (s.pc t).Holds) : Flag s' := by
  have hsame : ∀ u, (s'.pc u).Holds ↔ (s.pc u).Holds := fun u => by rw [same_goto hpc hp]
  refine ⟨fun u v hu hv => h.one u v ((hsame u).1 hu) ((hsame v).1 hv), ?_⟩
  rw [hlocked]
  simpa only [hsame] using h.locked

theorem Flag.set (h : Flag s) (hpc : s'.pc = Function.update s.pc t p)
    (hfree : s.lock.locked = 0) (hlocked : s'.lock.locked = 1) (hp : p.Holds) : Flag s' := by
  rcases h.locked with ⟨-, hno⟩ | ⟨hset, -⟩
  · refine ⟨?_, .inr ⟨hlocked, t, ?_⟩⟩
    · exact unique_goto h.one hpc (fun _ _ hu => hu) fun _ => .inr fun u _ => hno u
    · rw [hpc, Function.update_self]
      exact hp
  · rw [hfree] at hset
    cases hset

theorem Flag.clear (h : Flag s) (hpc : s'.pc = Function.update s.pc t p)
    (hlocked : s'.lock.locked = 0) (ht : (s.pc t).Holds) (hp : ¬ p.Holds) : Flag s' := by
  have hno : ∀ u, ¬ (s'.pc u).Holds := by
    intro u hu
    rw [hpc] at hu
    by_cases hut : u = t
    · rw [hut, Function.update_self] at hu
      exact hp hu
    · rw [Function.update_of_ne hut] at hu
      exact hut (h.one u t hu ht)
  exact ⟨fun u v hu => absurd hu (hno u), .inl ⟨hlocked, hno⟩⟩

end

/-- What another thread's access may change of what a thread at `p` knows. -/
structure Kept (s s' : State ι A) (q q' : List (Ref ι A)) (p : Pc ι A) : Prop where
  locked : ∀ r, p.node = some r → (s'.mem r.addr).locked = (s.mem r.addr).locked
  fresh : ∀ r, p = .initLocked r ∨ p = .exchange r → s'.mem r.addr = s.mem r.addr
  head : ∀ r, p.queued = some r → q.head? = some r → q'.head? = some r
  active : Active s p → (s.lock.locked = 0 → s'.lock.locked = 0) ∧ ∀ v, Succ s q v → Succ s' q' v

omit [DecidableEq ι] [DecidableEq A] in
/-- An access that leaves the nodes alone. -/
theorem Kept.of_mem (hmem : s'.mem = s.mem)
    (hhead : ∀ r, p.queued = some r → q.head? = some r → q'.head? = some r)
    (hactive : Active s p → (s.lock.locked = 0 → s'.lock.locked = 0) ∧
      ∀ v, Succ s q v → Succ s' q' v) :
    Kept s s' q q' p := by
  refine ⟨fun r _ => ?_, fun r _ => ?_, hhead, hactive⟩ <;> rw [hmem]

omit [DecidableEq ι] [DecidableEq A] in
theorem Kept.active_iff (h : Kept s s' q q' p) : Active s' p ↔ Active s p := by
  cases p with
  | awaitNode mm =>
    show (s'.mem mm.addr).locked ≠ 0 ↔ (s.mem mm.addr).locked ≠ 0
    rw [h.locked mm rfl]
  | _ => exact Iff.rfl

omit [DecidableEq ι] [DecidableEq A] in
theorem Kept.at (h : Kept s s' q q' p) (ha : At s q p) : At s' q' p := by
  cases p with
  | out | initNext mm | held => trivial
  | initLocked mm =>
    show (s'.mem mm.addr).next = .null
    rw [h.fresh mm (.inl rfl)]
    exact ha
  | exchange mm =>
    show (s'.mem mm.addr).next = .null ∧ (s'.mem mm.addr).locked = 0
    rw [h.fresh mm (.inr rfl)]
    exact ha
  | link mm prev => exact ⟨(h.locked mm rfl).trans ha.1, ha.2⟩
  | awaitNode mm =>
    intro hm
    rw [h.locked mm rfl] at hm
    exact h.head mm rfl (ha hm)
  | awaitLock mm | loadNext mm | compareExchange mm | awaitNext mm => exact h.head mm rfl ha
  | setLocked mm => exact ⟨h.head mm rfl ha.1, (h.active trivial).1 ha.2⟩
  | pass mm next => exact (h.active trivial).2 next ha

omit [DecidableEq A] in
theorem Succ.keep {v : Ptr ι A} (h : Succ s q v) (hpc : s'.pc = Function.update s.pc t p)
    (hq : ∀ r, q.head? = some r → q'.head? = some r)
    (hlocked : ∀ r, s.pc r.thread = .awaitNode r → (s'.mem r.addr).locked = (s.mem r.addr).locked)
    (ht : ∀ y, s.pc t = .awaitNode y → p = .awaitNode y) : Succ s' q' v := by
  obtain ⟨y, hv, hy, hyp, hyl⟩ := h
  refine ⟨y, hv, hq y hy, ?_, (hlocked y hyp).trans hyl⟩
  rw [hpc]
  by_cases hyt : y.thread = t
  · rw [hyt, Function.update_self]
    exact ht y (by rw [← hyt]; exact hyp)
  · rw [Function.update_of_ne hyt]
    exact hyp

/-- A thread goes on from where it is to `p`. -/
theorem Inv.goto (h : Inv s q w) (hpc : s'.pc = Function.update s.pc t p)
    (hqueue : Queued qspinlock layout s' q') (hflag : Flag s')
    (hw : ∀ r, w' = some r ↔ (s'.pc r.thread).acquired = some r)
    (hfifo : ∃ e, s'.entered = e ++ w'.toList ∧ s'.exchanged = e ++ q') (hat : At s' q' p)
    (hkept : ∀ u, u ≠ t → Kept s s' q q' (s.pc u))
    (hactive : Active s' p → Active s (s.pc t) ∨ ∀ u, u ≠ t → ¬ Active s (s.pc u)) :
    Inv s' q' w' where
  queue := hqueue
  flag := hflag
  acquired := hw
  fifo := hfifo
  one := unique_goto h.one hpc (fun u hu => (hkept u hu).active_iff.1) hactive
  known := known_goto h.known hpc hat fun u hu => (hkept u hu).at

/-- An access that leaves the nodes, the queue and the flag as they are. -/
theorem Inv.stay (h : Inv s q w) (hs : qspinlock.Step s s')
    (hpc : s'.pc = Function.update s.pc t p) (hmem : s'.mem = s.mem) (hlock : s'.lock = s.lock)
    (hlog : s'.exchanged = s.exchanged ∧ s'.entered = s.entered)
    (hp : p.queued = (s.pc t).queued ∧ p.links = (s.pc t).links ∧
      p.acquired = (s.pc t).acquired ∧ p.Holds = (s.pc t).Holds)
    (hwait : Active s (s.pc t) ∨ ∀ y, s.pc t = .awaitNode y → p = .awaitNode y)
    (hat : At s' q p) (hactive : Active s' p → Active s (s.pc t)) : Inv s' q w := by
  obtain ⟨hq, hl, hw, hh⟩ := hp
  refine h.goto hpc ?_ (h.flag.stay hpc (by rw [hlock]) hh) ?_ ?_ hat ?_ fun ha => .inl (hactive ha)
  · refine h.queue.stay (h.queue.live.step lawful hs) hpc (by rw [hlock]) (fun x _ => ?_) hq hl
    unfold Layout.next
    rw [hmem]
  · intro r
    rw [same_goto hpc hw]
    exact h.acquired r
  · rw [hlog.1, hlog.2]
    exact h.fifo
  · intro u hu
    refine .of_mem hmem (fun r _ hr => hr) fun hua => ?_
    rcases hwait with ha | hy
    · exact absurd (h.one u t hua ha) hu
    · exact ⟨fun hz => by rw [hlock]; exact hz,
        fun v hv => hv.keep hpc (fun r hr => hr) (fun r _ => by rw [hmem]) hy⟩

end Spin.Qspinlock
