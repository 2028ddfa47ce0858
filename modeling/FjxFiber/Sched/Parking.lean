import FjxFiber.Sched.Wakeup
import FjxFiber.Sched.Locking
import FjxFiber.Sync.ThreadSemaphore

/-!
# Idle threads on either thread semaphore

`Step` counts the signals of a work thread's semaphore in one number. Here the numbers are replaced
by the semaphores of a `Backend`, with all their steps: `ParkStep` runs the calls that
`work_thread_loop`, `enqueue_fiber` and `enqueue_fiber_list` make of them. As long as no wait is
interrupted its runs are runs of `Step` (`CalmRun.step`), so that an idle thread goes on only with
a fiber that was stored for it.
-/

set_option autoImplicit false

namespace Sched

open Lib Sync.ThreadSemaphore

/-- The scheduler, with the semaphore of each work thread. -/
structure ParkState (B : Backend Thr) where
  sched : State
  sem : Wid → B.State

variable {B : Backend Thr}

namespace ParkState

/-- The thread is in a call of `fjx_thread_semaphore_wait` or `fjx_thread_semaphore_signal`. -/
def Inside (u : ParkState B) (t : Thr) : Prop := ∃ w, B.phase (u.sem w) t ≠ .out

/-- The semaphore of `w` makes a step, and the scheduler goes on in `s`. -/
def step (u : ParkState B) (s : State) (w : Wid) (b : B.State) : ParkState B :=
  ⟨s, Function.update u.sem w b⟩

end ParkState

/-- Threads in a call of a semaphore stand aside while the others go on. A call moves its caller on
when it has its effect; the numbers `sem` of `Step` are written along, and not read. -/
inductive ParkStep (B : Backend Thr) : ParkState B → Act Thr SemOp → ParkState B → Prop
  | sched {u : ParkState B} {s' : State} (h : Step u.sched s') (hsem : s'.sem = u.sched.sem)
      (ha : ∀ t, u.Inside t → Aside t u.sched s') : ParkStep B u .silent ⟨s', u.sem⟩
  | silent {u : ParkState B} (w : Wid) {b : B.State} (hb : B.Step (u.sem w) .silent b) :
      ParkStep B u .silent (u.step u.sched w b)
  | ret {u : ParkState B} (w : Wid) {t : Thr} {op : SemOp} {b : B.State}
      (hb : B.Step (u.sem w) (.ret t op) b) : ParkStep B u (.ret t op) (u.step u.sched w b)
  -- `enqueue_fiber` and `enqueue_fiber_list` signal a thread
  | callSignal {u : ParkState B} {t c w k rest} {b : B.State}
      (ht : u.sched.thr t = some ⟨c, .signal w k :: rest⟩) (hout : ¬ u.Inside t)
      (hb : B.Step (u.sem w) (.call t .signal) b) :
      ParkStep B u (.call t .signal) (u.step u.sched w b)
  | signal {u : ParkState B} {t c w rest} {b : B.State}
      (ht : u.sched.thr t = some ⟨c, .signal w none :: rest⟩)
      (hb : B.Step (u.sem w) (.pass t .signal) b) :
      ParkStep B u (.pass t .signal) (u.step { u.sched.run t c rest with
        sem := Function.update u.sched.sem w (u.sched.sem w + 1) } w b)
  | signalNext {u : ParkState B} {t c w l ths rest} {b : B.State}
      (ht : u.sched.thr t = some ⟨c, .signal w (some (l, ths)) :: rest⟩)
      (hb : B.Step (u.sem w) (.pass t .signal) b) :
      ParkStep B u (.pass t .signal) (u.step { u.sched.run t c (.pairUp l ths :: rest) with
        sem := Function.update u.sched.sem w (u.sched.sem w + 1) } w b)
  -- `work_thread_loop` waits
  | callWait {u : ParkState B} {t w rest} {b : B.State}
      (ht : u.sched.thr t = some ⟨.loop w, .loopPark :: rest⟩) (hout : ¬ u.Inside t)
      (hb : B.Step (u.sem w) (.call t .wait) b) :
      ParkStep B u (.call t .wait) (u.step u.sched w b)
  | wake {u : ParkState B} {t w rest} {b : B.State}
      (ht : u.sched.thr t = some ⟨.loop w, .loopPark :: rest⟩)
      (hb : B.Step (u.sem w) (.pass t .wait) b) :
      ParkStep B u (.pass t .wait) (u.step { u.sched.run t (.loop w) (.loopSwitch :: rest) with
        sem := Function.update u.sched.sem w (u.sched.sem w - 1) } w b)
  | interrupt {u : ParkState B} {t w rest} {b : B.State}
      (ht : u.sched.thr t = some ⟨.loop w, .loopPark :: rest⟩)
      (hb : B.Step (u.sem w) (.interrupt t .wait) b) :
      ParkStep B u (.interrupt t .wait)
        (u.step (u.sched.run t (.loop w) (.loopSwitch :: rest)) w b)

/-- A step that `ok` allows. -/
def ParkNext (B : Backend Thr) (ok : Act Thr SemOp → Prop) (u u' : ParkState B) : Prop :=
  ∃ act, ok act ∧ ParkStep B u act u'

/-- The states reached from `fiber_scheduler_init` by steps that `ok` allows. -/
abbrev ParkReached (B : Backend Thr) (ok : Act Thr SemOp → Prop) : ParkState B → Prop :=
  Reachable (fun u => ∃ obj, (∀ o, (obj o).Fresh) ∧ u = ⟨.start obj, fun _ => B.init 0⟩)
    (ParkNext B ok)

/-! ## Runs in which no wait is interrupted -/

variable {ok : Act Thr SemOp → Prop} {u u' v : ParkState B} {w : Wid} {rest : List Frame}

/-- The state is one of `Step`, with the counts of the semaphores for its numbers. -/
structure CalmRun (u : ParkState B) : Prop where
  reached : Reached u.sched
  count : ∀ w, B.count (u.sem w) = u.sched.sem w

theorem CalmRun.counts (h : CalmRun u) {s : State} {b : B.State} {n : Nat} (hb : B.count b = n)
    (hs : s.sem = Function.update u.sched.sem w n) (w' : Wid) :
    B.count ((u.step s w b).sem w') = s.sem w' := by
  rw [hs]
  by_cases hw : w' = w
  · subst hw
    simp [ParkState.step, hb]
  · simp [ParkState.step, hw, h.count w']

/-- The semaphore of `w` has made a step that does not change its count. -/
theorem CalmRun.keep (h : CalmRun u) {b : B.State} (hb : B.count b = B.count (u.sem w)) :
    CalmRun (u.step u.sched w b) := by
  refine ⟨h.reached, h.counts (hb.trans (h.count w)) ?_⟩
  exact (Function.update_eq_self _ _).symm

/-- **A step in which no wait is interrupted** is a step of the scheduler, or changes nothing of
it. -/
theorem CalmRun.step (hB : B.Lawful) (h : CalmRun u) {act : Act Thr SemOp}
    (hact : Backend.Uninterrupted act) (hs : ParkStep B u act u') :
    CalmRun u' ∧ (Step u.sched u'.sched ∨ u'.sched = u.sched) := by
  have hsmall : ∀ w, B.count (u.sem w) < Posix.semValueMax := by
    intro w
    rw [h.count w]
    have hle := h.reached.inv.sem_le w
    unfold Posix.semValueMax
    omega
  cases hs with
  | sched hstep hsem ha =>
    refine ⟨⟨h.reached.next hstep, ?_⟩, .inl hstep⟩
    intro w
    rw [hsem]
    exact h.count w
  | silent w hb => exact ⟨h.keep (hB.keep _ _ _ hb nofun), .inr rfl⟩
  | ret w hb => exact ⟨h.keep (hB.keep _ _ _ hb nofun), .inr rfl⟩
  | callSignal ht hout hb => exact ⟨h.keep (hB.keep _ _ _ hb nofun), .inr rfl⟩
  | callWait ht hout hb => exact ⟨h.keep (hB.keep _ _ _ hb nofun), .inr rfl⟩
  | @signal t c w rest b ht hb =>
    have hcount := (hB.signal _ _ _ hb).2 (hsmall w)
    rw [h.count w] at hcount
    have hstep := Step.signal ht
    exact ⟨⟨h.reached.next hstep, h.counts hcount rfl⟩, .inl hstep⟩
  | @signalNext t c w l ths rest b ht hb =>
    have hcount := (hB.signal _ _ _ hb).2 (hsmall w)
    rw [h.count w] at hcount
    have hstep := Step.signalNext ht
    exact ⟨⟨h.reached.next hstep, h.counts hcount rfl⟩, .inl hstep⟩
  | @wake t w rest b ht hb =>
    have hcount := hB.wait _ _ _ hb
    rw [h.count w] at hcount
    have hstep := Step.loopWake ht hcount
    have hn : u.sched.sem w - 1 = B.count b := by omega
    refine ⟨⟨?_, h.counts hn.symm rfl⟩, .inl ?_⟩
    · show Reached _
      rw [hn]
      exact h.reached.next hstep
    · show Step _ _
      rw [hn]
      exact hstep
  | interrupt ht hb => exact hact.elim

theorem ParkReached.calm (hB : B.Lawful) (hok : ∀ u act u', ok act → ParkStep B u act u' →
    Backend.Uninterrupted act) (h : ParkReached B ok u) : CalmRun u := by
  refine h.invariant (J := CalmRun) ?_ ?_
  · rintro u ⟨obj, ho, rfl⟩
    refine ⟨.start ⟨obj, ho, rfl⟩, ?_⟩
    intro w
    exact (hB.init 0).1
  · intro u u' hc ⟨act, hact, hs⟩
    exact (hc.step hB (hok u act u' hact hs) hs).1

/-- In a run whose waits are not interrupted, every step is one of the scheduler or changes nothing
of it. -/
theorem ParkReached.stutters (hB : B.Lawful) (hok : ∀ u act u', ok act → ParkStep B u act u' →
    Backend.Uninterrupted act) (h : ParkReached B ok u) (hs : ParkNext B ok u u') :
    Step u.sched u'.sched ∨ u'.sched = u.sched := by
  obtain ⟨act, hact, hs⟩ := hs
  exact ((h.calm hB hok).step hB (hok u act u' hact hs) hs).2

/-! ## Idle threads -/

/-- The step in which a call of `enqueue_fiber` or `enqueue_fiber_list` stores the `stack_top` of
`g` for `w`, which is not in `idle_thread_list` any more. -/
def Assigns (w : Wid) (g : Fid) (u u' : ParkState B) : Prop :=
  Stores w g u.sched u'.sched ∧ w ∉ u.sched.idleThreadList

theorem Stores.unlinked {s s' : State} {g : Fid} (h : Inv s) (hs : Stores w g s s') :
    w ∉ s.idleThreadList := by
  obtain ⟨t, c, k, rest, ht⟩ := hs.call
  intro hw
  have hh : w ∈ s.post (.inHands t) := by simp [State.post, ht, Frame.hands]
  cases h.threads.placed.place_unique (p := .idle) hw hh

/-- A thread that went idle is parked with nothing stored for it until a fiber is assigned to it. -/
theorem ParkReached.parked (hB : B.Lawful) (hok : ∀ u act u', ok act → ParkStep B u act u' →
    Backend.Uninterrupted act) (h : ParkReached B ok u) (hw : w ∈ u.sched.idleThreadList)
    (hr : Relation.ReflTransGen (ParkNext B ok) u v) :
    (v.sched.Parked w ∧ v.sched.stored w = none) ∨
      ∃ a b g, Relation.ReflTransGen (ParkNext B ok) u a ∧ ParkNext B ok a b ∧ Assigns w g a b ∧
        Relation.ReflTransGen (ParkNext B ok) b v := by
  induction hr with
  | refl => exact .inl ((h.calm hB hok).reached.inv.idle hw)
  | @tail a b hua hs ih =>
    have ha : ParkReached B ok a := h.run hua
    have hi : Inv a.sched := (ha.calm hB hok).reached.inv
    rcases ih with ⟨hp, hn⟩ | ⟨a₁, b₁, g, h1, h2, h3, h4⟩
    · rcases ha.stutters hB hok hs with hstep | heq
      · rcases hstep.stores hi hp hn with hn' | ⟨g, hg⟩
        · have hsem : a.sched.sem w = 0 := by
            by_contra hne
            exact (hi.threads.stored w).2 (.inr (.inl (Nat.pos_of_ne_zero hne))) hn
          exact .inl ⟨hstep.parked hp hsem, hn'⟩
        · exact .inr ⟨a, b, g, hua, hs, ⟨hg, hg.unlinked hi⟩, .refl⟩
      · rw [heq]
        exact .inl ⟨hp, hn⟩
    · exact .inr ⟨a₁, b₁, g, h1, h2, h3, h4.tail hs⟩

/-- A thread that linked itself in `idle_thread_list` is about to switch only after an enqueue has
unlinked it and stored a fiber for it. -/
def WakesWithFiber (B : Backend Thr) (ok : Act Thr SemOp → Prop) : Prop :=
  ∀ u v w rest, ParkReached B ok u → w ∈ u.sched.idleThreadList →
    Relation.ReflTransGen (ParkNext B ok) u v →
    v.sched.thr (.work w) = some ⟨.loop w, .loopSwitch :: rest⟩ →
      ∃ a b g, Relation.ReflTransGen (ParkNext B ok) u a ∧ ParkNext B ok a b ∧ Assigns w g a b ∧
        Relation.ReflTransGen (ParkNext B ok) b v

theorem wakes_with_fiber (hB : B.Lawful) (hok : ∀ u act u', ok act → ParkStep B u act u' →
    Backend.Uninterrupted act) : WakesWithFiber B ok := by
  intro u v w rest h hw hr ht
  rcases h.parked hB hok hw hr with ⟨⟨rest', hp⟩, -⟩ | hrun
  · rw [hp] at ht
    cases ht
  · exact hrun

theorem ParkStep.std_uninterrupted {u u' : ParkState Backend.std} {act : Act Thr SemOp}
    (hs : ParkStep .std u act u') : Backend.Uninterrupted act := by
  cases hs with
  | interrupt ht hb => exact Backend.std_uninterrupted hb
  | _ => exact trivial

/-- **Parking is sound**: no more waits return than there were tokens at first and calls of signal
since, and an idle thread goes on only with a fiber that was stored for it; in every run on the
semaphores of `std-thread.c`, and in every run on those of `pthread.c` in which no `sem_wait` is
interrupted. -/
theorem parking_sound (ι : Type) [DecidableEq ι] (c : UInt32) :
    (∀ s : (Backend.std : Backend ι).State, Backend.std.Reached c s →
      (Backend.std.counts s).returned .wait ≤ c.toNat + (Backend.std.counts s).calls .signal) ∧
    (∀ s : (Backend.posix : Backend ι).State, Backend.posix.Calm c s →
      (Backend.posix.counts s).returned .wait ≤ c.toNat + (Backend.posix.counts s).calls .signal) ∧
    WakesWithFiber .std (fun _ => True) ∧ WakesWithFiber .posix Backend.Uninterrupted := by
  refine ⟨?_, ?_, ?_, ?_⟩
  · intro s h
    exact (Backend.std_calm h).returned_le Backend.std_lawful
  · intro s h
    exact h.returned_le Backend.posix_lawful
  · exact wakes_with_fiber Backend.std_lawful fun _ _ _ _ hs => hs.std_uninterrupted
  · exact wakes_with_fiber Backend.posix_lawful fun _ _ _ hact _ => hact

/-- A step of the scheduler while nobody is in a call of a semaphore. -/
theorem ParkReached.plain {s s' : State} {b : Wid → B.State} (h : ParkReached B ok ⟨s, b⟩)
    (hok : ok .silent) (hout : ∀ w t, B.phase (b w) t = .out) (hs : Step s s')
    (hsem : s'.sem = s.sem) : ParkReached B ok ⟨s', b⟩ := by
  refine h.next ⟨.silent, hok, .sched hs hsem ?_⟩
  rintro t ⟨w, hw⟩
  exact absurd (hout w t) hw

/-- A thread goes idle on a semaphore of `pthread.c`; the main fiber spawns a fiber and signals the
thread, which wakes up with it. -/
theorem parking_sound_run : ∃ u v : ParkState .posix, ParkReached .posix Backend.Uninterrupted u ∧
    1 ∈ u.sched.idleThreadList ∧ v.sched.thr (.work 1) = some ⟨.loop 1, [.loopSwitch]⟩ ∧
    ∃ a b g, Relation.ReflTransGen (ParkNext .posix Backend.Uninterrupted) u a ∧
      ParkNext .posix Backend.Uninterrupted a b ∧ Assigns 1 g a b ∧
      Relation.ReflTransGen (ParkNext .posix Backend.Uninterrupted) b v := by
  have h0 : ParkReached .posix Backend.Uninterrupted
      ⟨.start fun _ => .mutex .create, fun _ => Backend.posix.init 0⟩ :=
    .start ⟨_, fun _ => .inl rfl, rfl⟩
  have hout : ∀ (w : Wid) (t : Thr), Backend.posix.phase (Backend.posix.init 0) t = .out := by
    intro w t
    rfl
  have h1 := h0.plain trivial hout (.start 1 rfl) rfl
    |>.plain trivial hout (.acquire (t := .work 1) .queue rfl rfl rfl) rfl
    |>.plain trivial hout (.loopIdle (t := .work 1) rfl rfl rfl) rfl
  have hstep : ∀ {u : ParkState .posix} {s' : State}, Step u.sched s' → s'.sem = u.sched.sem →
      u.sem = (fun _ => Backend.posix.init 0) →
      ParkNext .posix Backend.Uninterrupted u ⟨s', u.sem⟩ := by
    intro u s' hs hsem hu
    refine ⟨.silent, trivial, .sched hs hsem ?_⟩
    rintro t ⟨w, hw⟩
    rw [hu] at hw
    exact absurd (hout w t) hw
  have hrefl : ∀ {u : ParkState .posix}, ParkReached .posix Backend.Uninterrupted u →
      Relation.ReflTransGen (ParkNext .posix Backend.Uninterrupted) u u := fun _ => .refl
  have h2 := (hrefl h1).tail (hstep (.quiet (t := .work 0) rfl .spawn) rfl rfl)
    |>.tail (hstep (.acquire (t := .work 0) .disposed rfl rfl rfl) rfl rfl)
    |>.tail (hstep (.spawnEmpty (t := .work 0) rfl rfl rfl) rfl rfl)
    |>.tail (hstep (.spawnNew (t := .work 0) 1 rfl rfl) rfl rfl)
    |>.tail (hstep (.acquire (t := .work 0) .queue rfl rfl rfl) rfl rfl)
    |>.tail (hstep (.enqueueIdle (t := .work 0) rfl rfl rfl) rfl rfl)
    |>.tail (hstep (.store (t := .work 0) rfl) rfl rfl)
  obtain ⟨u, s, hu, hidle, hr, ht0, ht1⟩ : ∃ (u : ParkState .posix) (s : State),
      ParkReached .posix Backend.Uninterrupted u ∧ 1 ∈ u.sched.idleThreadList ∧
      Relation.ReflTransGen (ParkNext .posix Backend.Uninterrupted) u
        ⟨s, fun _ => Backend.posix.init 0⟩ ∧
      s.thr (.work 0) = some ⟨.fiber 0, [.signal 1 none, .user]⟩ ∧
      s.thr (.work 1) = some ⟨.loop 1, [.loopPark]⟩ :=
    ⟨_, _, h1, List.mem_cons_self, h2, rfl, rfl⟩
  have h3 := hr.tail ⟨.call (.work 0) .signal, trivial,
      .callSignal ht0 (fun ⟨w, hw⟩ => hw rfl) (.call .signal rfl)⟩
    |>.tail ⟨.pass (.work 0) .signal, trivial, .signal ht0 (.post rfl)⟩
    |>.tail ⟨.ret (.work 0) .signal, trivial, .ret 1 (.ret rfl)⟩
    |>.tail ⟨.call (.work 1) .wait, trivial, .callWait (w := 1) ht1
      (fun ⟨w, hw⟩ => hw (by rcases w with _ | _ | w <;> rfl)) (.call .wait rfl)⟩
    |>.tail ⟨.pass (.work 1) .wait, trivial, .wake (w := 1) ht1 (.take rfl rfl)⟩
  exact ⟨_, _, hu, hidle, rfl, (parking_sound Thr 0).2.2.2 _ _ 1 [] hu hidle h3 rfl⟩

/-- A `sem_wait` of `pthread.c` is interrupted: the wait returns although nobody has signalled, and
the thread is about to switch to the `NULL` of its `thread_fiber` while it is still linked in
`idle_thread_list`. -/
theorem parking_interrupted :
    (∃ s, (Backend.posix : Backend Thr).Reached 0 s ∧
      (Backend.posix.counts s).returned .wait = 1 ∧ (Backend.posix.counts s).calls .signal = 0) ∧
    ∃ v : ParkState .posix, ParkReached .posix (fun _ => True) v ∧ 1 ∈ v.sched.idleThreadList ∧
      v.sched.thr (.work 1) = some ⟨.loop 1, [.loopSwitch]⟩ ∧ ¬ v.Inside (.work 1) ∧
      v.sched.stored 1 = none ∧ v.sched.threadFiber 1 = none := by
  have hs : (Backend.posix : Backend Thr).Reached 0 (Backend.posix.init 0) := .start rfl
  have hs' := hs.next ⟨.call (.work 1) .wait, .call .wait rfl⟩
    |>.next ⟨.interrupt (.work 1) .wait, .interrupt rfl⟩ |>.next ⟨.ret (.work 1) .wait, .ret rfl⟩
  have h0 : ParkReached .posix (fun _ => True)
      ⟨.start fun _ => .mutex .create, fun _ => Backend.posix.init 0⟩ :=
    .start ⟨_, fun _ => .inl rfl, rfl⟩
  have hout : ∀ (w : Wid) (t : Thr), Backend.posix.phase (Backend.posix.init 0) t = .out := by
    intro w t
    rfl
  have h1 := h0.plain trivial hout (.start 1 rfl) rfl
    |>.plain trivial hout (.acquire (t := .work 1) .queue rfl rfl rfl) rfl
    |>.plain trivial hout (.loopIdle (t := .work 1) rfl rfl rfl) rfl
  have h2 := h1.next ⟨.call (.work 1) .wait, trivial,
      .callWait (w := 1) rfl (fun ⟨w, hw⟩ => hw rfl) (.call .wait rfl)⟩
    |>.next ⟨.interrupt (.work 1) .wait, trivial, .interrupt (w := 1) rfl (.interrupt rfl)⟩
    |>.next ⟨.ret (.work 1) .wait, trivial, .ret 1 (.ret rfl)⟩
  refine ⟨⟨_, hs', rfl, rfl⟩, _, h2, List.mem_cons_self, rfl, ?_, rfl, rfl⟩
  rintro ⟨w, hw⟩
  exact hw (by rcases w with _ | _ | w <;> rfl)

end Sched
