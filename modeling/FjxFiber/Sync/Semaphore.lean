import FjxFiber.Lib.MonitorProof
import Mathlib.Algebra.Ring.Nat

/-!
# Fiber semaphores (`src/semaphore.c`)

`waitImpl`, `signalImpl` and `destroyImpl` are the critical sections of
`fiber_semaphore_wait_impl`, `fiber_semaphore_signal_impl` and `fiber_semaphore_destroy_impl`.
`count` and `bound` are `unsigned int`, so they are `UInt32` here and `count` would wrap. A signal
that finds a waiter hands its token over without touching `count`; one that finds `count` at the
bound drops it.

The ghost fields of `Counted` record what became of every token.
-/

set_option autoImplicit false

namespace Sync

open Lib Lib.Monitor

variable {F : Type*}

/-- `struct fjx_fiber_semaphore__`, less its spinlock. -/
structure FiberSemaphore (F : Type*) where
  fiberList : List F
  count : UInt32
  bound : UInt32
  deriving DecidableEq, Repr

namespace FiberSemaphore

/-- `fiber_semaphore_bound_create`. -/
def boundCreate (count bound : UInt32) : FiberSemaphore F := { fiberList := [], count, bound }

/-- `fiber_semaphore_create`: the bound is `UINT_MAX`. -/
def create (count : UInt32) : FiberSemaphore F := boundCreate count (.ofNat (2 ^ 32 - 1))

/-- `fiber_semaphore_signal_impl` under `s->lock`. -/
def signalImpl (s : FiberSemaphore F) : FiberSemaphore F × Outcome F :=
  match s.fiberList with
  | g :: rest => ({ s with fiberList := rest }, .wake g)
  | [] => (if s.count < s.bound then { s with count := s.count + 1 } else s, .ret)

/-- `fiber_semaphore_wait_impl` under `s->lock`, called by `f`. -/
def waitImpl (f : F) (s : FiberSemaphore F) : FiberSemaphore F × Outcome F :=
  if s.count > 0 then ({ s with count := s.count - 1 }, .ret)
  else ({ s with fiberList := s.fiberList ++ [f] }, .block)

/-- `fiber_semaphore_destroy_impl` under `s->lock`. -/
def destroyImpl (s : FiberSemaphore F) : FiberSemaphore F × Outcome F :=
  if s.count = 0 then ({ s with fiberList := [] }, .drain s.fiberList) else (s, .drain [])

end FiberSemaphore

inductive SemaphoreOp
  | wait
  | signal
  | destroy
  deriving DecidableEq, Repr

/-- A semaphore with the history of its tokens. -/
structure Counted (F : Type*) extends FiberSemaphore F where
  /-- The signals performed. -/
  signals : Nat
  /-- The waits that were granted, at once or by handoff, in order. -/
  granted : List F
  /-- What each dropped signal found: the queue, the count. -/
  dropped : List (List F × UInt32)
  /-- The waiters that destroy took. -/
  drained : List F
  /-- How many signals found a waiter. -/
  handoffs : Nat

namespace Counted

def boundCreate (count bound : UInt32) : Counted F :=
  { FiberSemaphore.boundCreate count bound with
    signals := 0, granted := [], dropped := [], drained := [], handoffs := 0 }

/-- A new semaphore of `fiber_semaphore_create`. -/
def create (count : UInt32) : Counted F := boundCreate count (.ofNat (2 ^ 32 - 1))

/-- A section, with the history it makes. -/
def sec (op : SemaphoreOp) (f : F) (o : Counted F) : Counted F × Outcome F :=
  match op with
  | .wait =>
    let r := o.toFiberSemaphore.waitImpl f
    match r.2 with
    | .ret => ({ o with toFiberSemaphore := r.1, granted := o.granted ++ [f] }, r.2)
    | _ => ({ o with toFiberSemaphore := r.1 }, r.2)
  | .signal =>
    let r := o.toFiberSemaphore.signalImpl
    match r.2 with
    | .wake g => ({ o with
        toFiberSemaphore := r.1, signals := o.signals + 1, granted := o.granted ++ [g],
        handoffs := o.handoffs + 1 }, r.2)
    | _ => ({ o with
        toFiberSemaphore := r.1, signals := o.signals + 1,
        dropped := if r.1.count = o.count then o.dropped ++ [(o.fiberList, o.count)]
          else o.dropped }, r.2)
  | .destroy =>
    let r := o.toFiberSemaphore.destroyImpl
    ({ o with toFiberSemaphore := r.1, drained := r.2.taken }, r.2)

end Counted

/-- The semaphore as a guarded object; anybody may wait, signal or destroy. -/
def semaphore (F : Type*) : Spec F SemaphoreOp (Counted F) where
  sec := Counted.sec
  waiters o := o.fiberList
  may _ _ _ := True
  closes op := op = .destroy

namespace FiberSemaphore

/-! ## The sections -/

/-- **What a section does**: a wait takes a token or blocks; a signal hands its token to the first
waiter, adds it to the count or drops it; destroy takes the waiters of an empty semaphore. -/
theorem sec_cases (op : SemaphoreOp) (f : F) (o : Counted F) :
    (op = .wait ∧ 0 < o.count ∧ (semaphore F).sec op f o =
      ({ o with count := o.count - 1, granted := o.granted ++ [f] }, .ret)) ∨
    (op = .wait ∧ o.count = 0 ∧ (semaphore F).sec op f o =
      ({ o with fiberList := o.fiberList ++ [f] }, .block)) ∨
    (∃ g rest, op = .signal ∧ o.fiberList = g :: rest ∧ (semaphore F).sec op f o =
      ({ o with fiberList := rest, signals := o.signals + 1, granted := o.granted ++ [g],
                handoffs := o.handoffs + 1 }, .wake g)) ∨
    (op = .signal ∧ o.fiberList = [] ∧ o.count < o.bound ∧ (semaphore F).sec op f o =
      ({ o with count := o.count + 1, signals := o.signals + 1 }, .ret)) ∨
    (op = .signal ∧ o.fiberList = [] ∧ o.bound ≤ o.count ∧ (semaphore F).sec op f o =
      ({ o with signals := o.signals + 1, dropped := o.dropped ++ [([], o.count)] }, .ret)) ∨
    (op = .destroy ∧ o.count = 0 ∧ (semaphore F).sec op f o =
      ({ o with fiberList := [], drained := o.fiberList }, .drain o.fiberList)) ∨
    (op = .destroy ∧ 0 < o.count ∧ (semaphore F).sec op f o =
      ({ o with drained := [] }, .drain [])) := by
  cases op with
  | wait =>
    by_cases h : o.count > 0
    · exact .inl ⟨rfl, h, by simp [semaphore, Counted.sec, waitImpl, h]⟩
    · exact .inr (.inl ⟨rfl, by simpa using h, by simp [semaphore, Counted.sec, waitImpl, h]⟩)
  | signal =>
    cases hq : o.fiberList with
    | cons g rest =>
      exact .inr (.inr (.inl ⟨g, rest, rfl, rfl, by
        simp [semaphore, Counted.sec, signalImpl, hq]⟩))
    | nil =>
      by_cases h : o.count < o.bound
      · have hne : o.count + 1 ≠ o.count := by grind
        exact .inr (.inr (.inr (.inl ⟨rfl, rfl, h, by
          simp [semaphore, Counted.sec, signalImpl, hq, h]⟩)))
      · exact .inr (.inr (.inr (.inr (.inl ⟨rfl, rfl, by simpa using h, by
          simp [semaphore, Counted.sec, signalImpl, hq, h]⟩))))
  | destroy =>
    by_cases h : o.count = 0
    · exact .inr (.inr (.inr (.inr (.inr (.inl ⟨rfl, h, by
        simp [semaphore, Counted.sec, destroyImpl, h, Outcome.taken]⟩)))))
    · exact .inr (.inr (.inr (.inr (.inr (.inr ⟨rfl, by grind, by
        simp [semaphore, Counted.sec, destroyImpl, h, Outcome.taken]⟩)))))

theorem lawful : (semaphore F).Lawful := by
  constructor <;> intro op f o
  all_goals
    rcases sec_cases op f o with ⟨rfl, -, h⟩ | ⟨rfl, -, h⟩ | ⟨_, _, rfl, hl, h⟩ |
      ⟨rfl, -, -, h⟩ | ⟨rfl, -, -, h⟩ | ⟨rfl, -, h⟩ | ⟨rfl, -, h⟩ <;> rw [h] <;>
      simp [semaphore, *]

/-! ## Tokens -/

/-- Every token is accounted for, and the wait calls so far are the granted ones, then the queued
ones (or those that destroy took). -/
structure Sound (c₀ bound : UInt32) (l : List (F × SemaphoreOp)) (taken : List F)
    (o : Counted F) : Prop where
  same : o.bound = bound
  signals : o.signals = (callers .signal l).length
  tokens : c₀.toNat + o.signals = o.count.toNat + o.granted.length + o.dropped.length
  limit : o.count.toNat ≤ max c₀.toNat bound.toNat
  queue : o.fiberList ≠ [] → o.count = 0
  drops : ∀ d ∈ o.dropped, d.1 = [] ∧ bound ≤ d.2
  fifo : callers .wait l = o.granted ++ o.drained ++ o.fiberList
  live : (semaphore F).Live l → o.drained = []
  dead : ¬ (semaphore F).Live l → o.fiberList = []
  taken : taken.length = o.handoffs + o.drained.length

variable {c₀ bound : UInt32}

theorem Sound.create : Sound c₀ bound [] [] (Counted.boundCreate c₀ bound : Counted F) where
  same := rfl
  signals := rfl
  tokens := by simp [Counted.boundCreate, boundCreate]
  limit := Nat.le_max_left _ _
  queue h := absurd rfl h
  drops := by simp [Counted.boundCreate]
  fifo := rfl
  live _ := rfl
  dead h := absurd (fun x hx => by simp at hx) h
  taken := rfl

/-- Taking a token from a positive count does not wrap. -/
theorem toNat_pred {c : UInt32} (h : 0 < c) : (c - 1).toNat = c.toNat - 1 ∧ 0 < c.toNat := by
  have hc : 0 < c.toNat := UInt32.lt_iff_toNat_lt.1 h
  refine ⟨?_, hc⟩
  rw [UInt32.toNat_sub_of_le c 1 (UInt32.le_iff_toNat_le.2 hc)]
  rfl

/-- Adding a token to a count below some bound does not wrap. -/
theorem toNat_succ {c b : UInt32} (h : c < b) :
    (c + 1).toNat = c.toNat + 1 ∧ c.toNat < b.toNat := by
  have hcb : c.toNat < b.toNat := UInt32.lt_iff_toNat_lt.1 h
  have hb := b.toNat_lt
  refine ⟨?_, hcb⟩
  rw [UInt32.toNat_add]
  simp
  omega

theorem Sound.sec {l : List (F × SemaphoreOp)} {t : List F} {o : Counted F} {f : F}
    {op : SemaphoreOp} (hl : (semaphore F).Live l) (h : Sound c₀ bound l t o) :
    Sound c₀ bound (l ++ [(f, op)]) (t ++ ((semaphore F).sec op f o).2.taken)
      ((semaphore F).sec op f o).1 := by
  obtain ⟨hb, hsig, htok, hlim, hqueue, hdrops, hfifo, hlive, hdead, htaken⟩ := h
  have hd := hlive hl
  have hn : (semaphore F).Live (l ++ [(f, op)]) ↔ op ≠ .destroy := by
    rw [Spec.live_snoc hl]
    simp [semaphore]
  rcases sec_cases op f o with ⟨rfl, hc, hs⟩ | ⟨rfl, hc, hs⟩ | ⟨g, rest, rfl, hq, hs⟩ |
    ⟨rfl, hq, hc, hs⟩ | ⟨rfl, hq, hc, hs⟩ | ⟨rfl, hc, hs⟩ | ⟨rfl, hc, hs⟩ <;> rw [hs]
  · -- a wait takes a token; nobody can be queued
    obtain ⟨h1, h2⟩ := toNat_pred hc
    have hq : o.fiberList = [] := by
      by_contra hq
      simp [hqueue hq] at hc
    refine ⟨hb, by simp [hsig], ?_, ?_, fun h => absurd hq h, hdrops, by simp [hfifo, hd, hq],
      fun _ => hd, fun h => absurd (hn.2 (by simp)) h, by simpa [Outcome.taken] using htaken⟩
    · simp only [h1, List.length_append, List.length_singleton]
      omega
    · simp only [h1]
      omega
  · -- a wait blocks
    exact ⟨hb, by simp [hsig], htok, hlim, fun _ => hc, hdrops, by simp [hfifo, hd], fun _ => hd,
      fun h => absurd (hn.2 (by simp)) h, by simpa [Outcome.taken] using htaken⟩
  · -- a signal hands its token over
    refine ⟨hb, by simp [hsig], ?_, hlim, fun _ => hqueue (by simp [hq]), hdrops,
      by simp [hfifo, hd, hq], fun _ => hd, fun h => absurd (hn.2 (by simp)) h, ?_⟩
    · simp only [List.length_append, List.length_singleton]
      omega
    · simp only [Outcome.taken, List.length_append, List.length_singleton, htaken]
      omega
  · -- a signal adds its token
    obtain ⟨h1, h2⟩ := toNat_succ hc
    refine ⟨hb, by simp [hsig], ?_, ?_, fun h => absurd hq h, hdrops, by simp [hfifo],
      fun _ => hd, fun h => absurd (hn.2 (by simp)) h, by simpa [Outcome.taken] using htaken⟩
    · simp only [h1]
      omega
    · simp only [h1]
      rw [hb] at h2
      omega
  · -- a signal is dropped
    refine ⟨hb, by simp [hsig], ?_, hlim, fun h => absurd hq h, fun d hm => ?_,
      by simp [hfifo], fun _ => hd, fun h => absurd (hn.2 (by simp)) h,
      by simpa [Outcome.taken] using htaken⟩
    · simp only [List.length_append, List.length_singleton]
      omega
    · rcases List.mem_append.1 hm with hm | hm
      · exact hdrops d hm
      · simp only [List.mem_singleton] at hm
        rw [hm]
        exact ⟨rfl, hb ▸ hc⟩
  · -- destroy takes the waiters of an empty semaphore
    have hdr : t.length = o.handoffs := by simpa [hd] using htaken
    exact ⟨hb, by simp [hsig], htok, hlim, fun h => absurd rfl h, hdrops, by simp [hfifo, hd],
      fun h => absurd rfl (hn.1 h), fun _ => rfl, by simp [Outcome.taken, hdr]⟩
  · -- a semaphore with a token has no waiters
    have hq : o.fiberList = [] := by
      by_contra hq
      simp [hqueue hq] at hc
    exact ⟨hb, by simp [hsig], htok, hlim, hqueue, hdrops, by simp [hfifo, hd], fun _ => rfl,
      fun _ => hq, by simpa [Outcome.taken, hd] using htaken⟩

/-! ## Every interleaving -/

variable [DecidableEq F]

/-- The states of `fiber_semaphore_bound_create(c₀, bound)`, under any interleaving of calls. -/
abbrev Reached (c₀ bound : UInt32) : State F SemaphoreOp (Counted F) → Prop :=
  Reach (semaphore F) (Counted.boundCreate c₀ bound)

theorem Reached.sound {s : State F SemaphoreOp (Counted F)} (h : Reached c₀ bound s) :
    Sound c₀ bound s.secs s.takenLog s.obj :=
  (Reach.sequential (D := fun _ _ _ => True) lawful rfl Sound.create
    (fun _ _ _ _ _ _ _ _ => trivial) (fun _ _ _ _ _ hl hJ _ => hJ.sec hl)
    (fun _ _ _ _ _ _ _ _ _ _ _ _ => trivial) h).1

/-- The wait calls, in the order in which they took the spinlock: first the granted ones, then
those destroy took, then the queued ones, then the one still deciding. -/
theorem Reached.fifo {s : State F SemaphoreOp (Counted F)} (h : Reached c₀ bound s) :
    ∃ last, callers .wait s.order =
        s.obj.granted ++ s.obj.drained ++ s.obj.fiberList ++ last ∧
      (last = [] ∨ ∃ f, last = [f] ∧ s.pc f = .inside .wait) := by
  rw [← h.sound.fifo]
  exact Reach.callers_order lawful rfl h .wait

/-- **Fiber semaphores** conserve tokens and grant waits in order. In every state reached from
`fiber_semaphore_bound_create(c₀, bound)` by any interleaving of wait and signal calls and one
destroy:

* `c₀` and the signals performed are the count, the granted waits (at once or by handoff) and the
  dropped signals together; a dropped signal found no waiter and the count at the bound;
* the count is at most `max c₀ bound`, and a fiber is queued only when it is 0;
* waits have been granted in the order in which they took the spinlock, and the queue holds the
  next ones; those that blocked are taken in that order, one for each signal that found a waiter,
  and each is resumed once: it has been, or it is in the hands of the one call about to;
* a call with waiters in its hands can go on by itself, and resumes them in order;
* once destroy has released the spinlock nobody is queued, and when no call has a waiter in its
  hands any more nobody is blocked and everybody was resumed as often as it blocked;
* once destroy has freed the semaphore no call that took the spinlock is at a point where it would
  touch it. -/
theorem fiberSemaphore_tokens {s : State F SemaphoreOp (Counted F)} (h : Reached c₀ bound s) :
    (c₀.toNat + s.obj.signals =
        s.obj.count.toNat + s.obj.granted.length + s.obj.dropped.length ∧
      s.obj.signals = (callers .signal s.secs).length ∧
      ∀ d ∈ s.obj.dropped, d.1 = [] ∧ bound ≤ d.2) ∧
    (s.obj.count.toNat ≤ max c₀.toNat bound.toNat ∧
      (s.obj.fiberList ≠ [] → s.obj.count = 0)) ∧
    ((∃ last, callers .wait s.order =
          s.obj.granted ++ s.obj.drained ++ s.obj.fiberList ++ last ∧
        (last = [] ∨ ∃ f, last = [f] ∧ s.pc f = .inside .wait)) ∧
      s.blockLog = s.takenLog ++ s.obj.fiberList ∧
      s.takenLog.length = s.obj.handoffs + s.obj.drained.length ∧
      ∀ g, ((∃ f, g ∈ (s.pc f).held) → s.takenLog.count g = s.wakeLog.count g + 1) ∧
        ((∀ f, g ∉ (s.pc f).held) → s.takenLog.count g = s.wakeLog.count g)) ∧
    (∀ f, ∃ s', Finishes (semaphore F) s f s') ∧
    (s.closing = true → s.lock = none → s.obj.fiberList = [] ∧
      ((∀ f, (s.pc f).held = []) →
        ∀ g, (s.pc g).blocked = false ∧ s.blockLog.count g = s.wakeLog.count g)) ∧
    (s.freed = true → ∀ f, (s.pc f).touches = false) := by
  have hS := h.sound
  refine ⟨⟨hS.tokens, hS.signals, hS.drops⟩, ⟨hS.limit, hS.queue⟩,
    ⟨h.fifo, (Reach.inv lawful rfl h).fifo, hS.taken, Reach.taken_count lawful rfl h⟩,
    (Reach.inv lawful rfl h).exists_finishes, fun hc hl => ?_, Reach.untouched lawful rfl h⟩
  have hq := hS.dead ((Reach.liveLog lawful rfl h).closed hc hl)
  exact ⟨hq, Reach.none_blocked lawful rfl h hq⟩

/-- From one token and bound 1: fiber 0 takes the token, fiber 1 blocks, and fiber 0's signal hands
it a token and resumes it. Fiber 2 blocks, fiber 3 destroys the semaphore and resumes fiber 2. -/
theorem fiberSemaphore_tokens_run : ∃ s : State Nat SemaphoreOp (Counted Nat), Reached 1 1 s ∧
    s.freed = true ∧ s.wakeLog = [1, 2] ∧ s.pc 1 = .idle ∧ s.pc 2 = .idle ∧
    (1 : UInt32).toNat + s.obj.signals =
      s.obj.count.toNat + s.obj.granted.length + s.obj.dropped.length ∧ s.obj.granted = [0, 1] ∧
    (∀ g, s.takenLog.count g = s.wakeLog.count g) ∧
    (∀ g, (s.pc g).blocked = false ∧ s.blockLog.count g = s.wakeLog.count g) ∧
    ∀ g, (s.pc g).touches = false := by
  have h0 : Reached 1 1 (State.start (Counted.boundCreate 1 1 : Counted Nat)) := .start rfl
  have h1 := h0.next (.call 0 .wait rfl rfl trivial)
    |>.next (.acquire 0 .wait rfl rfl rfl)
    |>.next (.critical 0 .wait rfl)
  have h2 := h1.next (.call 1 .wait rfl rfl trivial)
    |>.next (.acquire 1 .wait rfl rfl rfl)
    |>.next (.critical 1 .wait rfl)
    |>.next (.publish 1 .wait rfl)
  have h3 := h2.next (.call 0 .signal rfl rfl trivial)
    |>.next (.acquire 0 .signal rfl rfl rfl)
    |>.next (.critical 0 .signal rfl)
    |>.next (.hand (f := 0) (g := 1) rfl)
    |>.next (.resume (f := 1) rfl)
  have h4 := h3.next (.call 2 .wait rfl rfl trivial)
    |>.next (.acquire 2 .wait rfl rfl rfl)
    |>.next (.critical 2 .wait rfl)
    |>.next (.publish 2 .wait rfl)
  have h5 := h4.next (.call 3 .destroy rfl rfl trivial)
    |>.next (.acquire 3 .destroy rfl rfl rfl)
    |>.next (.critical 3 .destroy rfl)
    |>.next (.free (f := 3) rfl)
    |>.next (.wake (f := 3) (g := 2) rfl)
    |>.next (.woken (f := 3) rfl)
    |>.next (.resume (f := 2) rfl)
  obtain ⟨⟨htokens, -⟩, -, ⟨-, -, -, hcount⟩, -, hclosed, hfreed⟩ := fiberSemaphore_tokens h5
  refine ⟨_, h5, rfl, rfl, rfl, rfl, htokens, rfl, fun g => (hcount g).2 fun f => ?_,
    (hclosed rfl rfl).2 fun f => ?_, hfreed rfl⟩
  · match f with
    | 0 | 1 | 2 | 3 | _ + 4 => exact List.not_mem_nil
  · match f with
    | 0 | 1 | 2 | 3 | _ + 4 => rfl

end FiberSemaphore

end Sync
