import FjxFiber.Lib.MonitorProof

/-!
# Fiber mutexes (`src/mutex.c`)

`lockImpl`, `unlockImpl` and `destroyImpl` are the critical sections of `fiber_mutex_lock_impl`,
`fiber_mutex_unlock_impl` and `fiber_mutex_destroy_impl`: what each does to the `FiberMutex`
between taking `m->lock` and releasing it, and how the call goes on. A fiber that finds the mutex
held links its own `fjx_fiber` and switches away (`Outcome.block`); the spinlock is released for it
by the deferred operation on the context it switches to. `mutex` interleaves the calls of any
number of fibers `F`, of which only an owner unlocks.

Who owns the mutex is written down nowhere in the code. The ghost fields of `Owned` record it:
a fiber is an owner from the section that lets it through, or that pops it as the next owner, to its
own unlock.
-/

set_option autoImplicit false

namespace Sync

open Lib Lib.Monitor

variable {F : Type*}

/-- `struct fjx_fiber_mutex__`, less its spinlock. -/
structure FiberMutex (F : Type*) where
  fiberList : List F
  hold : Int
  deriving DecidableEq, Repr

namespace FiberMutex

/-- `fiber_mutex_create`. -/
def create : FiberMutex F := { fiberList := [], hold := 0 }

/-- `fiber_mutex_lock_impl` under `m->lock`, called by `f`. -/
def lockImpl (f : F) (m : FiberMutex F) : FiberMutex F × Outcome F :=
  if m.hold = 0 then ({ m with hold := 1 }, .ret)
  else ({ m with fiberList := m.fiberList ++ [f] }, .block)

/-- `fiber_mutex_unlock_impl` under `m->lock`. -/
def unlockImpl (m : FiberMutex F) : FiberMutex F × Outcome F :=
  match m.fiberList with
  | [] => ({ m with hold := 0 }, .ret)
  | g :: rest => ({ m with fiberList := rest }, .wake g)

/-- `fiber_mutex_destroy_impl` under `m->lock`. -/
def destroyImpl (m : FiberMutex F) : FiberMutex F × Outcome F :=
  if m.hold = 1 then ({ m with fiberList := [] }, .drain m.fiberList) else (m, .drain [])

end FiberMutex

inductive MutexOp
  | lock
  | unlock
  | destroy
  deriving DecidableEq, Repr

/-- A mutex with the history that its code does not keep. -/
structure Owned (F : Type*) extends FiberMutex F where
  /-- The fibers that were let through and have not unlocked. -/
  owners : List F
  /-- The fibers that ownership was granted to, in order. -/
  granted : List F
  /-- The waiters that destroy took. -/
  drained : List F
  /-- How many unlocks found a waiter. -/
  handoffs : Nat

namespace Owned

variable [DecidableEq F]

def create : Owned F :=
  { FiberMutex.create with owners := [], granted := [], drained := [], handoffs := 0 }

/-- A section, with the history it makes. -/
def sec (op : MutexOp) (f : F) (o : Owned F) : Owned F × Outcome F :=
  match op with
  | .lock =>
    let r := o.toFiberMutex.lockImpl f
    match r.2 with
    | .ret => ({ o with
        toFiberMutex := r.1, owners := f :: o.owners, granted := o.granted ++ [f] }, r.2)
    | _ => ({ o with toFiberMutex := r.1 }, r.2)
  | .unlock =>
    let r := o.toFiberMutex.unlockImpl
    let owners := o.owners.erase f
    match r.2 with
    | .wake g => ({ o with
        toFiberMutex := r.1, owners := g :: owners, granted := o.granted ++ [g],
        handoffs := o.handoffs + 1 }, r.2)
    | _ => ({ o with toFiberMutex := r.1, owners }, r.2)
  | .destroy =>
    let r := o.toFiberMutex.destroyImpl
    ({ o with toFiberMutex := r.1, drained := r.2.taken }, r.2)

end Owned

/-- The mutex as a guarded object; only an owner unlocks. -/
def mutex (F : Type*) [DecidableEq F] : Spec F MutexOp (Owned F) where
  sec := Owned.sec
  waiters o := o.fiberList
  may o f op := op = .unlock → f ∈ o.owners
  closes op := op = .destroy

namespace FiberMutex

variable [DecidableEq F]

/-! ## The sections -/

/-- **What a section does**: a lock call is let through or blocks, an unlock frees the mutex or
pops the next owner, and destroy takes the waiters of a held mutex. -/
theorem sec_cases (op : MutexOp) (f : F) (o : Owned F) :
    (op = .lock ∧ o.hold = 0 ∧ (mutex F).sec op f o =
      ({ o with hold := 1, owners := f :: o.owners, granted := o.granted ++ [f] }, .ret)) ∨
    (op = .lock ∧ o.hold ≠ 0 ∧ (mutex F).sec op f o =
      ({ o with fiberList := o.fiberList ++ [f] }, .block)) ∨
    (op = .unlock ∧ o.fiberList = [] ∧ (mutex F).sec op f o =
      ({ o with hold := 0, owners := o.owners.erase f }, .ret)) ∨
    (∃ g rest, op = .unlock ∧ o.fiberList = g :: rest ∧ (mutex F).sec op f o =
      ({ o with fiberList := rest, owners := g :: o.owners.erase f, granted := o.granted ++ [g],
                handoffs := o.handoffs + 1 }, .wake g)) ∨
    (op = .destroy ∧ o.hold = 1 ∧ (mutex F).sec op f o =
      ({ o with fiberList := [], drained := o.fiberList }, .drain o.fiberList)) ∨
    (op = .destroy ∧ o.hold ≠ 1 ∧
      (mutex F).sec op f o = ({ o with drained := [] }, .drain [])) := by
  cases op with
  | lock =>
    by_cases h : o.hold = 0
    · exact .inl ⟨rfl, h, by simp [mutex, Owned.sec, FiberMutex.lockImpl, h]⟩
    · exact .inr (.inl ⟨rfl, h, by simp [mutex, Owned.sec, FiberMutex.lockImpl, h]⟩)
  | unlock =>
    cases h : o.fiberList with
    | nil =>
      exact .inr (.inr (.inl ⟨rfl, rfl, by simp [mutex, Owned.sec, FiberMutex.unlockImpl, h]⟩))
    | cons g rest =>
      exact .inr (.inr (.inr (.inl ⟨g, rest, rfl, rfl,
        by simp [mutex, Owned.sec, FiberMutex.unlockImpl, h]⟩)))
  | destroy =>
    by_cases h : o.hold = 1
    · exact .inr (.inr (.inr (.inr (.inl ⟨rfl, h,
        by simp [mutex, Owned.sec, FiberMutex.destroyImpl, h, Outcome.taken]⟩))))
    · exact .inr (.inr (.inr (.inr (.inr ⟨rfl, h,
        by simp [mutex, Owned.sec, FiberMutex.destroyImpl, h, Outcome.taken]⟩))))

theorem lawful : (mutex F).Lawful := by
  constructor <;> intro op f o
  case closes =>
    rcases sec_cases op f o with ⟨rfl, -, h⟩ | ⟨rfl, -, h⟩ | ⟨rfl, -, h⟩ | ⟨_, _, rfl, -, h⟩ |
      ⟨rfl, -, h⟩ | ⟨rfl, -, h⟩ <;> rw [h] <;> simp [mutex]
  all_goals
    rcases sec_cases op f o with ⟨rfl, -, h⟩ | ⟨rfl, -, h⟩ | ⟨rfl, -, h⟩ | ⟨_, _, rfl, hl, h⟩ |
      ⟨rfl, -, h⟩ | ⟨rfl, -, h⟩ <;> rw [h] <;> simp [mutex, *]

/-! ## Ownership -/

/-- Nobody owns the mutex, or one fiber does and `hold` says so; every grant has been given up by
an unlock or is an owner's; the lock calls so far are the granted ones, then the queued ones (or
those that destroy took). -/
structure Sound (l : List (F × MutexOp)) (taken : List F) (o : Owned F) : Prop where
  owner : o.hold = 0 ∧ o.owners = [] ∧ o.fiberList = [] ∨ o.hold = 1 ∧ ∃ f, o.owners = [f]
  unlocks : o.granted.length = o.owners.length + (callers .unlock l).length
  fifo : callers .lock l = o.granted ++ o.drained ++ o.fiberList
  live : (mutex F).Live l → o.drained = []
  dead : ¬ (mutex F).Live l → o.fiberList = []
  taken : taken.length = o.handoffs + o.drained.length

/-- What a caller relies on: the unlocking fiber is an owner. -/
def Relies (o : Owned F) (f : F) (op : MutexOp) : Prop := op = .unlock → f ∈ o.owners

theorem Sound.create : Sound [] [] (Owned.create : Owned F) where
  owner := .inl ⟨rfl, rfl, rfl⟩
  unlocks := rfl
  fifo := rfl
  live _ := rfl
  dead h := absurd (fun x hx => by simp at hx) h
  taken := rfl

theorem Sound.sec {l : List (F × MutexOp)} {t : List F} {o : Owned F} {f : F} {op : MutexOp}
    (hl : (mutex F).Live l) (h : Sound l t o) (hr : Relies o f op) :
    Sound (l ++ [(f, op)]) (t ++ ((mutex F).sec op f o).2.taken) ((mutex F).sec op f o).1 := by
  obtain ⟨hown, hunl, hfifo, hlive, hdead, htaken⟩ := h
  have hd := hlive hl
  have hn : (mutex F).Live (l ++ [(f, op)]) ↔ op ≠ .destroy := by
    rw [Spec.live_snoc hl]
    simp [mutex]
  rcases sec_cases op f o with ⟨rfl, hh, hs⟩ | ⟨rfl, hh, hs⟩ | ⟨rfl, hq, hs⟩ |
    ⟨g, rest, rfl, hq, hs⟩ | ⟨rfl, hh, hs⟩ | ⟨rfl, hh, hs⟩ <;> rw [hs]
  · -- let through
    obtain ⟨-, ho, hq⟩ : o.hold = 0 ∧ o.owners = [] ∧ o.fiberList = [] := by
      rcases hown with h | ⟨h1, -⟩
      · exact h
      · omega
    exact ⟨.inr ⟨rfl, f, by simp [ho]⟩, by simp [hunl, Nat.add_right_comm],
      by simp [hfifo, hd, hq], fun _ => hd, fun h => absurd (hn.2 (by simp)) h,
      by simpa [Outcome.taken] using htaken⟩
  · -- queued behind the owner
    refine ⟨.inr (hown.resolve_left fun h => hh h.1), by simp [hunl], ?_, fun _ => hd,
      fun h => absurd (hn.2 (by simp)) h, by simpa [Outcome.taken] using htaken⟩
    simp [hfifo, hd]
  · -- the owner unlocks and nobody waits
    obtain ⟨g, hg⟩ : ∃ g, o.owners = [g] := by
      rcases hown with ⟨-, ho, -⟩ | ⟨-, h⟩
      · simp [Relies, ho] at hr
      · exact h
    have hfg : f = g := by simpa [Relies, hg] using hr
    exact ⟨.inl ⟨rfl, by simp [hg, hfg], hq⟩, by simp [hunl, hg, hfg, Nat.add_comm],
      by simp [hfifo], fun _ => hd,
      fun h => absurd (hn.2 (by simp)) h, by simpa [Outcome.taken] using htaken⟩
  · -- the owner hands the mutex on, and `hold` stays 1
    obtain ⟨hh, a, ha⟩ : o.hold = 1 ∧ ∃ a, o.owners = [a] :=
      hown.resolve_left fun h => by simp [h.2.2] at hq
    have hfa : f = a := by simpa [Relies, ha] using hr
    refine ⟨.inr ⟨hh, g, by simp [ha, hfa]⟩, ?_, by simp [hfifo, hd, hq], fun _ => hd,
      fun h => absurd (hn.2 (by simp)) h, ?_⟩
    · rw [ha] at hunl
      simp only [callers_snoc, if_true, List.length_append, ha, hfa, List.erase_cons_head,
        List.length_cons, List.length_nil] at hunl ⊢
      omega
    · simp only [Outcome.taken, List.length_append, List.length_singleton, htaken]
      omega
  · -- destroy takes the waiters of a held mutex
    have hdr : t.length = o.handoffs := by simpa [hd] using htaken
    refine ⟨.inr (hown.resolve_left fun h => by omega), by simp [hunl], by simp [hfifo, hd],
      fun h => absurd rfl (hn.1 h), fun _ => rfl, by simp [Outcome.taken, hdr]⟩
  · -- a mutex that nobody holds has no waiters
    have hq : o.fiberList = [] := by
      rcases hown with h | h
      · exact h.2.2
      · exact absurd h.1 hh
    exact ⟨hown, by simp [hunl], by simp [hfifo, hd], fun _ => rfl, fun _ => hq,
      by simpa [Outcome.taken, hd] using htaken⟩

/-- The section of another fiber leaves an owner that is about to unlock an owner. -/
theorem Relies.keep {l : List (F × MutexOp)} {t : List F} {o : Owned F} {f g : F}
    {op op' : MutexOp} (h : Sound l t o) (hfg : f ≠ g) (hf : Relies o f op)
    (hg : Relies o g op') : Relies ((mutex F).sec op' g o).1 f op := by
  intro hop
  have hfo := hf hop
  -- an unlock of `g` would make `g` the owner as well
  have hno : op' ≠ .unlock := fun hu => by
    rcases h.owner with ⟨-, ho, -⟩ | ⟨-, a, ha⟩
    · simp [ho] at hfo
    · have hga := hg hu
      simp only [ha, List.mem_singleton] at hfo hga
      exact hfg (hfo.trans hga.symm)
  rcases sec_cases op' g o with ⟨-, -, hs⟩ | ⟨-, -, hs⟩ | ⟨hu, -⟩ | ⟨_, _, hu, -⟩ | ⟨-, -, hs⟩ |
    ⟨-, -, hs⟩
  · rw [hs]; exact List.mem_cons_of_mem _ hfo
  · rw [hs]; exact hfo
  · exact absurd hu hno
  · exact absurd hu hno
  · rw [hs]; exact hfo
  · rw [hs]; exact hfo

/-! ## Every interleaving -/

/-- The states of a mutex from its creation, under any interleaving of the calls. -/
abbrev Reached : State F MutexOp (Owned F) → Prop := Reach (mutex F) Owned.create

theorem Reached.sound {s : State F MutexOp (Owned F)} (h : Reached s) :
    Sound s.secs s.takenLog s.obj :=
  (Reach.sequential lawful rfl Sound.create (fun _ _ _ _ _ _ _ hm => hm)
    (fun _ _ _ _ _ hl hJ hr => hJ.sec hl hr)
    (fun _ _ _ _ _ _ _ _ hJ hfg hf hg => Relies.keep hJ hfg hf hg) h).1

/-- The lock calls, in the order in which they took the spinlock: first those that were granted
the mutex, then those destroy took, then the queued ones, then the one still deciding. -/
theorem Reached.fifo {s : State F MutexOp (Owned F)} (h : Reached s) :
    ∃ last, callers .lock s.order =
        s.obj.granted ++ s.obj.drained ++ s.obj.fiberList ++ last ∧
      (last = [] ∨ ∃ f, last = [f] ∧ s.pc f = .inside .lock) := by
  rw [← h.sound.fifo]
  exact Reach.callers_order lawful rfl h .lock

/-- **Fiber mutexes** hand ownership on in the order of the lock calls, to one fiber at a time.
In every state reached by any interleaving of lock and unlock calls and one destroy:

* at most one fiber is an owner; with the spinlock free, `hold` is 1 exactly when there is one, and
  a fiber is queued only then; each unlock has given up one of the ownerships granted, and the rest
  are the owners';
* ownership has been granted to a prefix of the lock calls, in the order in which they took the
  spinlock, and the queue holds the next ones in that order;
* every unlock that found a waiter took one, and each taken waiter is resumed once: it has been, or
  it is in the hands of the one call that is about to;
* a call with waiters in its hands can go on by itself, and resumes them in order;
* once destroy has released the spinlock nobody is queued, and when no call has a waiter in its
  hands any more nobody is blocked and everybody was resumed as often as it blocked;
* once destroy has freed the mutex no call that took the spinlock is at a point where it would
  touch the mutex. -/
theorem fiberMutex_handoff {s : State F MutexOp (Owned F)} (h : Reached s) :
    (s.obj.owners.length ≤ 1 ∧
      (s.lock = none → (s.obj.hold = 1 ↔ s.obj.owners ≠ []) ∧
        (s.obj.fiberList ≠ [] → s.obj.hold = 1)) ∧
      s.obj.granted.length = s.obj.owners.length + (callers .unlock s.secs).length) ∧
    (∃ last, callers .lock s.order =
        s.obj.granted ++ s.obj.drained ++ s.obj.fiberList ++ last ∧
      (last = [] ∨ ∃ f, last = [f] ∧ s.pc f = .inside .lock)) ∧
    (s.takenLog.length = s.obj.handoffs + s.obj.drained.length ∧
      ∀ g, ((∃ f, g ∈ (s.pc f).held) → s.takenLog.count g = s.wakeLog.count g + 1) ∧
        ((∀ f, g ∉ (s.pc f).held) → s.takenLog.count g = s.wakeLog.count g)) ∧
    (∀ f, ∃ s', Finishes (mutex F) s f s') ∧
    (s.closing = true → s.lock = none → s.obj.fiberList = [] ∧
      ((∀ f, (s.pc f).held = []) →
        ∀ g, (s.pc g).blocked = false ∧ s.blockLog.count g = s.wakeLog.count g)) ∧
    (s.freed = true → ∀ f, (s.pc f).touches = false) := by
  have hS := h.sound
  refine ⟨⟨?_, fun _ => ⟨?_, ?_⟩, hS.unlocks⟩, h.fifo,
    ⟨hS.taken, Reach.taken_count lawful rfl h⟩, (Reach.inv lawful rfl h).exists_finishes,
    fun hc hl => ?_, Reach.untouched lawful rfl h⟩
  · rcases hS.owner with ⟨-, ho, -⟩ | ⟨-, f, ho⟩ <;> simp [ho]
  · rcases hS.owner with ⟨hh, ho, -⟩ | ⟨hh, f, ho⟩ <;> simp [hh, ho]
  · rcases hS.owner with ⟨-, -, hq⟩ | ⟨hh, -⟩
    · simp [hq]
    · exact fun _ => hh
  · have hq := hS.dead ((Reach.liveLog lawful rfl h).closed hc hl)
    exact ⟨hq, Reach.none_blocked lawful rfl h hq⟩

/-- Fiber 0 takes the mutex, fiber 1 queues up, and fiber 0's unlock hands it the mutex and resumes
it. Fiber 2 queues up behind fiber 1, fiber 3 destroys the mutex and resumes fiber 2. -/
theorem fiberMutex_handoff_run : ∃ s : State Nat MutexOp (Owned Nat), Reached s ∧
    s.freed = true ∧ s.wakeLog = [1, 2] ∧ s.pc 1 = .idle ∧ s.pc 2 = .idle ∧
    s.obj.granted.length = s.obj.owners.length + 1 ∧ s.takenLog.length = 2 ∧
    (∀ g, s.takenLog.count g = s.wakeLog.count g) ∧
    (∀ g, (s.pc g).blocked = false ∧ s.blockLog.count g = s.wakeLog.count g) ∧
    ∀ g, (s.pc g).touches = false := by
  have h0 : Reached (State.start (Owned.create : Owned Nat)) := .start rfl
  have h1 := h0.next (.call 0 .lock rfl rfl (by simp [mutex]))
    |>.next (.acquire 0 .lock rfl rfl rfl)
    |>.next (.critical 0 .lock rfl)
  have h2 := h1.next (.call 1 .lock rfl rfl (by simp [mutex]))
    |>.next (.acquire 1 .lock rfl rfl rfl)
    |>.next (.critical 1 .lock rfl)
    |>.next (.publish 1 .lock rfl)
  have h3 := h2.next (.call 0 .unlock rfl rfl (fun _ => by decide))
    |>.next (.acquire 0 .unlock rfl rfl rfl)
    |>.next (.critical 0 .unlock rfl)
    |>.next (.hand (f := 0) (g := 1) rfl)
    |>.next (.resume (f := 1) rfl)
  have h4 := h3.next (.call 2 .lock rfl rfl (by simp [mutex]))
    |>.next (.acquire 2 .lock rfl rfl rfl)
    |>.next (.critical 2 .lock rfl)
    |>.next (.publish 2 .lock rfl)
  have h5 := h4.next (.call 3 .destroy rfl rfl (by simp [mutex]))
    |>.next (.acquire 3 .destroy rfl rfl rfl)
    |>.next (.critical 3 .destroy rfl)
    |>.next (.free (f := 3) rfl)
    |>.next (.wake (f := 3) (g := 2) rfl)
    |>.next (.woken (f := 3) rfl)
    |>.next (.resume (f := 2) rfl)
  obtain ⟨⟨-, -, hunlocks⟩, -, ⟨htaken, hcount⟩, -, hclosed, hfreed⟩ := fiberMutex_handoff h5
  refine ⟨_, h5, rfl, rfl, rfl, rfl, hunlocks, htaken, fun g => (hcount g).2 fun f => ?_,
    (hclosed rfl rfl).2 fun f => ?_, hfreed rfl⟩
  · match f with
    | 0 | 1 | 2 | 3 | _ + 4 => exact List.not_mem_nil
  · match f with
    | 0 | 1 | 2 | 3 | _ + 4 => rfl

end FiberMutex

end Sync
