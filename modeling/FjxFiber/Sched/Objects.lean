import FjxFiber.Sched.Project

/-!
# Mutexes and semaphores in the system

The guarantees of `Sync.FiberMutex` and `Sync.FiberSemaphore`, for fibers that the scheduler runs on
any number of work threads: they are read off the run of the object alone that a run of the system
projects on (`UsesReached.project`).
-/

set_option autoImplicit false

namespace Sched

open Lib Sync

variable {o : Oid} {f g : Fid} {P O : Type} {K : Kind P O} {x₀ : O}

/-! ## The two kinds -/

def MutexOp.op : MutexOp → Op
  | .lock => .lock
  | .unlock => .unlock
  | .destroy => .destroy

def mutexKind : Kind MutexOp (Owned Fid) where
  spec := mutex Fid
  obj x := .mutex x.toFiberMutex
  op := MutexOp.op

def SemaphoreOp.op : SemaphoreOp → Op
  | .wait => .wait
  | .signal => .signal
  | .destroy => .destroy

def semaphoreKind : Kind SemaphoreOp (Counted Fid) where
  spec := semaphore Fid
  obj x := .semaphore x.toFiberSemaphore
  op := SemaphoreOp.op

theorem semaphoreKind_lawful : semaphoreKind.Lawful where
  spec := FiberSemaphore.lawful
  inj a b h := by cases a <;> cases b <;> first | rfl | cases h
  sec a f x := by
    cases a with
    | wait =>
      by_cases hh : x.count > 0 <;>
        simp [semaphoreKind, SemaphoreOp.op, Object.critical, semaphore, Counted.sec,
          FiberSemaphore.waitImpl, hh]
    | signal =>
      cases hq : x.fiberList with
      | cons g rest =>
        simp [semaphoreKind, SemaphoreOp.op, Object.critical, semaphore, Counted.sec,
          FiberSemaphore.signalImpl, hq]
      | nil =>
        by_cases hb : x.count < x.bound <;>
          simp [semaphoreKind, SemaphoreOp.op, Object.critical, semaphore, Counted.sec,
            FiberSemaphore.signalImpl, hq, hb]
    | destroy => rfl
  other op hop f x := by
    cases op with
    | wait => exact absurd rfl (hop .wait)
    | signal => exact absurd rfl (hop .signal)
    | destroy => exact absurd rfl (hop .destroy)
    | _ => rfl
  waiters x := rfl
  closes a := by cases a <;> simp [semaphoreKind, semaphore, SemaphoreOp.op]
  destroy := ⟨.destroy, rfl⟩
  entry o a := by cases a <;> rfl

/-! ## What a fiber did last -/

/-- The operation of the last section that `f` has run. -/
def lastOp (l : List (Fid × P)) (f : Fid) : Option P :=
  (l.reverse.find? fun e => e.1 = f).map Prod.snd

theorem lastOp_snoc (l : List (Fid × P)) (f g : Fid) (a : P) :
    lastOp (l ++ [(g, a)]) f = if g = f then some a else lastOp l f := by
  by_cases h : g = f <;> simp [lastOp, h]

/-- Who has locked the mutex and not unlocked it owns it, or is in its queue. -/
def Locked (l : List (Fid × MutexOp)) (x : Owned Fid) : Prop :=
  ∀ f, lastOp l f = some .lock → f ∈ x.owners ∨ f ∈ x.fiberList ∨ f ∈ x.drained

/-- Beside the fiber that unlocks there is no owner. -/
theorem sole_owner {l : List (Fid × MutexOp)} {taken : List Fid} {x : Owned Fid}
    (hs : FiberMutex.Sound l taken x) (hf : f ∈ x.owners) (hne : f ≠ g) : g ∉ x.owners := by
  intro hg
  rcases hs.owner with ⟨-, ho, -⟩ | ⟨-, a, ho⟩
  · rw [ho] at hf
    cases hf
  · rw [ho, List.mem_singleton] at hf hg
    exact hne (hf.trans hg.symm)

theorem Locked.sec {l : List (Fid × MutexOp)} {taken : List Fid} {x : Owned Fid} {op : MutexOp}
    (h : Locked l x) (hs : FiberMutex.Sound l taken x) (hl : (mutex Fid).Live l)
    (hr : FiberMutex.Relies x f op) : Locked (l ++ [(f, op)]) ((mutex Fid).sec op f x).1 := by
  intro g hg
  rw [lastOp_snoc] at hg
  have hd := hs.live hl
  rcases FiberMutex.sec_cases op f x with ⟨rfl, -, hsec⟩ | ⟨rfl, -, hsec⟩ | ⟨rfl, hq, hsec⟩ |
    ⟨g₀, rest, rfl, hq, hsec⟩ | ⟨rfl, -, hsec⟩ | ⟨rfl, hh, hsec⟩ <;> rw [hsec]
  · by_cases he : f = g
    · exact .inl (by simp [he])
    · rw [if_neg he] at hg
      exact (h g hg).imp_left (List.mem_cons_of_mem f)
  · by_cases he : f = g
    · exact .inr (.inl (by simp [he]))
    · rw [if_neg he] at hg
      exact (h g hg).imp_right (Or.imp_left (List.mem_append_left [f]))
  all_goals
    have hne : f ≠ g := by
      intro he
      rw [if_pos he] at hg
      cases hg
    rw [if_neg hne] at hg
    have hg := h g hg
    simp only [hd, List.not_mem_nil, or_false] at hg
  · rw [hq, List.mem_nil_iff, or_false] at hg
    exact absurd hg (sole_owner hs (hr rfl) hne)
  · rcases hg with hg | hg
    · exact absurd hg (sole_owner hs (hr rfl) hne)
    · rw [hq, List.mem_cons] at hg
      rcases hg with rfl | hg
      · exact .inl List.mem_cons_self
      · exact .inr (.inl hg)
  · exact hg.imp_right .inr
  · exact hg.imp_right .inl

/-! ## Mutexes -/

/-- The mutex `o`, with its history. -/
def Logged.mutex (u : Logged MutexOp) : Owned Fid := mutexKind.after .create u.log

/-- The semaphore `o`, with its history. -/
def Logged.semaphore (c₀ bound : UInt32) (u : Logged SemaphoreOp) : Counted Fid :=
  semaphoreKind.after (.boundCreate c₀ bound) u.log

/-- **A fiber semaphore counts in the whole system.** In every state that the scheduler reaches in
which the semaphore `o`, made by `fiber_semaphore_bound_create(c₀, bound)`, is not used once it has
been destroyed:

* `c₀` and the signals are the count, the granted waits and the dropped signals together, and a
  signal was dropped only with nobody queued and the count at the bound;
* the count is at most `max c₀ bound`, and a fiber is queued only when it is 0;
* waits have been granted in the order of their sections, and the queue holds the next ones;
* the waits that have returned, of the fibers that go on with their own code, have each been granted
  (or ended by destroy). -/
theorem system_semaphore_counts {c₀ bound : UInt32} {u : Logged SemaphoreOp}
    (h : UsesReached semaphoreKind (.boundCreate c₀ bound) o u) :
    u.sched.obj o = .semaphore (u.semaphore c₀ bound).toFiberSemaphore ∧
    (c₀.toNat + (Monitor.callers .signal u.log).length = (u.semaphore c₀ bound).count.toNat +
        (u.semaphore c₀ bound).granted.length + (u.semaphore c₀ bound).dropped.length ∧
      ∀ d ∈ (u.semaphore c₀ bound).dropped, d.1 = [] ∧ bound ≤ d.2) ∧
    ((u.semaphore c₀ bound).count.toNat ≤ max c₀.toNat bound.toNat ∧
      ((u.sched.obj o).waiters ≠ [] → (u.semaphore c₀ bound).count = 0)) ∧
    Monitor.callers .wait u.log = (u.semaphore c₀ bound).granted ++
      (u.semaphore c₀ bound).drained ++ (u.sched.obj o).waiters ∧
    ∀ t f rest, u.sched.thr t = some ⟨.fiber f, .user :: rest⟩ →
      (Monitor.callers .wait u.log).count f =
        (u.semaphore c₀ bound).granted.count f + (u.semaphore c₀ bound).drained.count f := by
  obtain ⟨m, hm, hshow⟩ := h.project semaphoreKind_lawful rfl
  have hS := FiberSemaphore.Reached.sound hm
  have hobj : m.obj = u.semaphore c₀ bound := hshow.after
  rw [hobj, hshow.secs] at hS
  have hsched : u.sched.obj o = .semaphore (u.semaphore c₀ bound).toFiberSemaphore := by
    rw [hshow.obj, hobj]
    rfl
  have hwaiters : (u.sched.obj o).waiters = (u.semaphore c₀ bound).fiberList := by rw [hsched]; rfl
  refine ⟨hsched, ⟨?_, hS.drops⟩, ⟨hS.limit, ?_⟩, ?_, ?_⟩
  · rw [← hS.signals, hS.tokens]
  · rw [hwaiters]
    exact hS.queue
  · rw [hwaiters]
    exact hS.fifo
  · intro t f rest ht
    have hnot := h.sched.inv.user_not_waiting (o := o) ht
    rw [hwaiters] at hnot
    rw [hS.fifo, List.count_append, List.count_append, List.count_eq_zero_of_not_mem hnot,
      Nat.add_zero]

/-- The fiber 1 is queued at a semaphore without tokens, is handed the token of the main fiber's
signal, and goes on with its own code. -/
theorem system_semaphore_counts_run : ∃ v u : Logged SemaphoreOp,
    UsesReached semaphoreKind (.boundCreate 0 1) 0 v ∧ (v.sched.obj 0).waiters = [1] ∧
    UsesReached semaphoreKind (.boundCreate 0 1) 0 u ∧ u.log = v.log ++ [(0, .signal)] ∧
    u.sched.thr (.work 0) = some ⟨.fiber 0, [.user]⟩ ∧
    u.sched.thr (.work 1) = some ⟨.fiber 1, [.user]⟩ ∧
    (Monitor.callers .wait u.log).count 1 =
      (u.semaphore 0 1).granted.count 1 + (u.semaphore 0 1).drained.count 1 ∧
    (u.semaphore 0 1).count = 0 ∧ (u.semaphore 0 1).granted = [1] := by
  obtain ⟨s, h, ht₀, ht₁, hl, hobj, hd, htf, hloop, hq, hi⟩ :=
    UsesReached.spawned semaphoreKind (.boundCreate 0 1) 0
      (fun _ => .semaphore (.boundCreate 0 1)) (fun _ => .inr (.inl ⟨0, 1, rfl⟩)) rfl
  have h1 := h.calls (t := .work 1) (a := .wait) semaphoreKind_lawful ht₁ (hl _) hd trivial nofun
    (by rw [hobj])
  obtain ⟨v, hv, hv₁, hv₀, hvl, hvq, hvo, hvd, hvdesc, hvsusp, hvf, hvi⟩ :=
    h1.parks rfl htf hloop
  have h2 := hv.calls (t := .work 0) (a := .signal) semaphoreKind_lawful (hv₀.trans ht₀) hvl
    ((congrFun hvd 0).trans hd) trivial nofun (by rw [hvo])
  obtain ⟨u, hu, hu₀, hu₁, hud⟩ := h2.resumes rfl hv₁ (hvq.trans (hl _)) hvdesc hvsusp
    (hvf.trans hq) (hvi.trans hi)
  obtain ⟨-, -, -, -, hret⟩ := system_semaphore_counts hu
  exact ⟨_, _, hv, by rw [hvo]; rfl, hu, rfl, hu₀, hu₁, hret (.work 1) 1 [] hu₁, rfl, rfl⟩

end Sched
