import FjxFiber.Sched.Conservation
import FjxFiber.Sched.Wakeup
import FjxFiber.Sched.Locking
import FjxFiber.Sched.Yield
import FjxFiber.Sched.Uses

/-!
# When the system stands still

Whatever a thread is about to do it can do, unless another thread holds the lock that it wants, or
it waits on its semaphore (`Reached.goes`); and who holds a lock goes on (`Reached.holder_goes`).
The same is so with `pool_lock` and `tlist_init_lock` (`LockReached.goes`), where a free lock may be
taken by any thread that wants it. So the scheduler itself never deadlocks: once no work thread can
move, there is nothing left to run, and every fiber sleeps or waits in an object for another one.
-/

set_option autoImplicit false

namespace Sched

open Lib Lib.StableQueue

variable {s s' : State} {t t' : Thr} {c : Ctx} {F : List Frame} {f : Fid} {w : Wid} {L : Lock}
  {r r' : Running}

/-! ## The next piece -/

/-- The thread `t` has a step. -/
def State.Moves (s : State) (t : Thr) : Prop := ∃ s', Step s s' ∧ ¬ Aside t s s'

/-- The thread `t` waits for a lock that `t'` holds. -/
def State.StandsBehind (s : State) (t t' : Thr) : Prop :=
  t' ≠ t ∧ ∃ c fr rest L, s.thr t = some ⟨c, fr :: rest⟩ ∧ fr.wants = some L ∧ s.lock L = some t'

/-- The thread waits on its semaphore, and nobody has signalled it. -/
def State.Dormant (s : State) (t : Thr) : Prop := ∃ w, t = .work w ∧ s.Parked w ∧ s.sem w = 0

/-- A step in which `t` goes on with other frames is one of `t`. -/
theorem Step.moves (hs : Step s s') (ht : s.thr t = some r)
    (hthr : s'.thr = Function.update s.thr t (some r')) (hne : r'.frames ≠ r.frames) :
    s.Moves t := by
  refine ⟨s', hs, ?_⟩
  intro ha
  have h := ha.thr
  rw [hthr, Function.update_self, ht] at h
  exact hne (congrArg Running.frames (Option.some.inj h))

/-- A lock that nobody holds can be taken. -/
theorem moves_acquire {fr : Frame} {rest : List Frame} (ht : s.thr t = some ⟨c, fr :: rest⟩)
    (hw : fr.wants = some L) (hl : s.lock L = none) : s.Moves t := by
  refine ⟨_, .acquire L ht hw hl, ?_⟩
  intro ha
  have h := (ha.lock L).1 (Function.update_self _ _ _)
  rw [hl] at h
  cases h

/-- A section whose lock is held can be run. -/
theorem Inv.section_goes (h : Inv s) {fr : Frame} {rest : List Frame}
    (ht : s.thr t = some ⟨c, fr :: rest⟩) (hw : fr.wants = some L) (hl : s.lock L = some t) :
    s.Moves t := by
  obtain ⟨hshape, hon⟩ := h.contexts.shape t c _ ht
  cases fr with
  | objectOp o op =>
    obtain rfl := Option.some.inj hw
    obtain ⟨f, rfl⟩ := (hshape.inner rfl).2
    refine (Step.object ht hl).moves ht rfl ?_
    cases ((s.obj o).critical op f).2 with
    | ret => exact frames_ne _ _
    | block | wake g | transfer g | drain gs => nofun
  | spawn =>
    obtain rfl := Option.some.inj hw
    cases hq : s.disposedFiberList with
    | nil => exact (Step.spawnEmpty ht hl hq).moves ht rfl nofun
    | cons g l => exact (Step.spawnPop ht hl hq).moves ht rfl nofun
  | recycle g =>
    obtain rfl := Option.some.inj hw
    exact (Step.recycle ht hl).moves ht rfl (frames_ne _ _)
  | getAvailable d =>
    obtain rfl := Option.some.inj hw
    cases hq : s.fiberList with
    | cons g l => exact (Step.availPop ht hl hq).moves ht rfl nofun
    | nil =>
      obtain ⟨f, rfl, -⟩ := (hshape.inner rfl).2
      obtain ⟨w, rfl⟩ := hon
      cases d with
      | enqueue g => exact (Step.yieldEmpty ht hl hq).moves ht rfl (frames_ne _ _)
      | recycle | timerAdd | unlock =>
        exact (Step.availEmpty ht hl hq nofun).moves ht rfl nofun
  | enqueue g =>
    obtain rfl := Option.some.inj hw
    cases hi : s.idleThreadList with
    | nil => exact (Step.enqueueTail ht hl hi).moves ht rfl (frames_ne _ _)
    | cons w ws => exact (Step.enqueueIdle ht hl hi).moves ht rfl nofun
  | enqueueList l =>
    cases l with
    | nil => cases hw
    | cons g l =>
      obtain rfl := Option.some.inj hw
      by_cases hi : s.idleThreadList = []
      · exact (Step.listTail ht hl hi).moves ht rfl (frames_ne _ _)
      · exact (Step.listTake ht hl hi).moves ht rfl nofun
  | giveBack ths =>
    obtain rfl := Option.some.inj hw
    by_cases hq : s.fiberList = []
    · exact (Step.backIdle ht hl hq).moves ht rfl (frames_ne _ _)
    · exact (Step.backSteal ht hl hq).moves ht rfl nofun
  | loopTop =>
    obtain rfl := Option.some.inj hw
    obtain rfl := hshape.outer rfl
    obtain ⟨w, rfl⟩ : ∃ w, c = .loop w := by
      cases c with
      | loop w => exact ⟨w, rfl⟩
      | fiber | timer => nomatch hshape
    cases hq : s.fiberList with
    | nil => exact (Step.loopIdle ht hl hq).moves ht rfl nofun
    | cons g l => exact (Step.loopPop ht hl hq).moves ht rfl nofun
  | timerAdd g tp =>
    obtain rfl := Option.some.inj hw
    exact (Step.timerAdd ht hl).moves ht rfl (frames_ne _ _)
  | timerTop =>
    obtain rfl := Option.some.inj hw
    obtain rfl : c = .timer := by
      obtain rfl := hshape.outer rfl
      cases c with
      | timer => rfl
      | fiber | loop => nomatch hshape
    refine ⟨_, .timerWait ht hl, ?_⟩
    intro ha
    have h := (ha.lock .timer).2 hl
    simp [State.release] at h
  | _ => cases hw

/-- Only finitely many fibers have been spawned. -/
theorem Reached.unspawned (h : Reached s) : ∃ n : Nat, ∀ f, n ≤ f → s.spawned f = false := by
  refine h.invariant (J := fun s => ∃ n : Nat, ∀ f, n ≤ f → s.spawned f = false) ?_ ?_
  · rintro s ⟨obj, -, rfl⟩
    exact ⟨1, fun f hf => decide_eq_false (Nat.ne_of_gt hf)⟩
  · rintro s s' ⟨n, hn⟩ hs
    cases hs with
    | @spawnNew t c rest g ht hg =>
      refine ⟨n + (g + 1), fun f hf => ?_⟩
      have hg' : g < n + (g + 1) := Nat.lt_add_left n (Nat.lt_succ_self g)
      have hne : f ≠ g := Nat.ne_of_gt (Nat.lt_of_lt_of_le hg' hf)
      exact (Function.update_of_ne hne _ _).trans (hn f (Nat.le_trans (Nat.le_add_right n _) hf))
    | _ => exact ⟨n, hn⟩

/-- **Progress.** A thread can take its next step, unless somebody else holds the lock that it
wants, or it waits on its semaphore. -/
theorem Reached.goes (h : Reached s) (ht : s.thr t = some r) :
    s.Moves t ∨ (∃ t', s.StandsBehind t t') ∨ s.Dormant t := by
  have hi := h.inv
  obtain ⟨c, F⟩ := r
  obtain ⟨hshape, hon⟩ := hi.contexts.shape t c F ht
  rcases F with _ | ⟨fr, rest⟩
  · exact hshape.ne_nil.elim
  cases hw : fr.wants with
  | some L =>
    cases hl : s.lock L with
    | none => exact .inl (moves_acquire ht hw hl)
    | some t' =>
      by_cases he : t' = t
      · rw [he] at hl
        exact .inl (hi.section_goes ht hw hl)
      · exact .inr (.inl ⟨t', he, c, fr, rest, L, ht, hw, hl⟩)
  | none =>
    cases fr with
    | loopPark =>
      obtain ⟨w, rfl⟩ := hshape.parked
      obtain rfl : t = .work w := hon
      cases hsem : s.sem w with
      | zero => exact .inr (.inr ⟨w, rfl, ⟨rest, ht⟩, hsem⟩)
      | succ n => exact .inl ((Step.loopWake ht hsem).moves ht rfl nofun)
    | user =>
      obtain ⟨f, rfl⟩ : ∃ f, c = .fiber f := by
        obtain rfl := hshape.outer rfl
        cases c with
        | fiber f => exact ⟨f, rfl⟩
        | loop | timer => nomatch hshape
      exact .inl ((Step.quiet ht .spawn).moves ht rfl nofun)
    | channelTest o op =>
      refine .inl ?_
      cases hc : (s.obj o).closed with
      | true => exact (Step.quiet ht (.channelClosed o op hc)).moves ht rfl (frames_ne _ _)
      | false => exact (Step.quiet ht (.channelOpen o op hc)).moves ht rfl nofun
    | queryMemory g => exact .inl ((Step.queryMemory ht).moves ht rfl nofun)
    | spawnNew =>
      obtain ⟨n, hn⟩ := h.unspawned
      exact .inl ((Step.spawnNew n ht (hn n (Nat.le_refl n))).moves ht rfl nofun)
    | sleepTest tp => exact .inl ((Step.quiet ht (.sleepLate tp)).moves ht rfl (frames_ne _ _))
    | copy src d =>
      obtain ⟨f, rfl, -⟩ := (hshape.inner rfl).2
      refine .inl ?_
      cases src with
      | some g => exact (Step.copyFiber ht).moves ht rfl nofun
      | none =>
        obtain ⟨w, rfl⟩ := hon
        exact (Step.copyThread ht).moves ht rfl nofun
    | push d src =>
      obtain ⟨f, rfl, -⟩ := (hshape.inner rfl).2
      obtain ⟨hd, -⟩ := hi.contexts.aim t f d src rest ht
      exact .inl ((Step.push ht hd).moves ht rfl nofun)
    | switch d src =>
      obtain ⟨f, rfl, -⟩ := (hshape.inner rfl).2
      obtain ⟨hd, -⟩ := hi.contexts.aimed t f d src rest ht
      obtain ⟨-, -, -, hcut⟩ := hi.switch_target ht hd
      refine .inl ((Step.switch ht hd).moves ht rfl ?_)
      rw [hcut]
      cases d <;> nofun
    | store g w k => exact .inl ((Step.store ht).moves ht rfl nofun)
    | signal w k =>
      refine .inl ?_
      cases k with
      | none => exact (Step.signal ht).moves ht rfl (frames_ne _ _)
      | some k =>
        obtain ⟨l, ths⟩ := k
        exact (Step.signalNext ht).moves ht rfl nofun
    | enqueueList l =>
      cases l with
      | nil => exact .inl ((Step.quiet ht .listDone).moves ht rfl (frames_ne _ _))
      | cons => cases hw
    | pairUp l ths =>
      refine .inl ?_
      cases l with
      | nil =>
        cases ths with
        | nil => exact (Step.quiet ht .pairDone).moves ht rfl (frames_ne _ _)
        | cons w ths => exact (Step.quiet ht (.pairBack w ths)).moves ht rfl nofun
      | cons g l =>
        cases ths with
        | nil => exact (Step.quiet ht (.pairMore g l)).moves ht rfl nofun
        | cons w ths => exact (Step.quiet ht (.pairNext g l w ths)).moves ht rfl nofun
    | unlock o => exact .inl ((Step.unlock ht).moves ht rfl (frames_ne _ _))
    | loopCopy g =>
      obtain ⟨w, rfl⟩ : ∃ w, c = .loop w := by
        obtain rfl := hshape.outer rfl
        cases c with
        | loop w => exact ⟨w, rfl⟩
        | fiber | timer => nomatch hshape
      exact .inl ((Step.loopCopy ht).moves ht rfl nofun)
    | loopSwitch =>
      obtain ⟨w, rfl⟩ : ∃ w, c = .loop w := by
        obtain rfl := hshape.outer rfl
        cases c with
        | loop w => exact ⟨w, rfl⟩
        | fiber | timer => nomatch hshape
      obtain ⟨g, hg⟩ := Option.ne_none_iff_exists'.1
        ((hi.threads.stored w).2 (.inr (.inr ⟨t, rest, ht⟩)))
      have htf := hi.contexts.stored w g hg
      obtain ⟨-, -, -, -, hcut⟩ := hi.loopSwitch_target ht htf
      refine .inl ((Step.loopSwitch ht htf).moves ht rfl ?_)
      rw [hcut]
      nofun
    | _ => cases hw

/-- Who holds a lock is not held up. -/
theorem Reached.holder_goes (h : Reached s) (hl : s.lock L = some t) : s.Moves t := by
  obtain ⟨⟨c, F⟩, ht, hk⟩ := h.held t L hl
  rcases F with _ | ⟨fr, rest⟩
  · cases hk
  rcases h.goes ht with hm | ⟨t', hne, c', fr', rest', L', ht', hw, hl'⟩ | ⟨w, rfl, ⟨rest', hp⟩, -⟩
  · exact hm
  · -- a section takes its own lock only, and this one is held by somebody else
    rw [ht] at ht'
    cases ht'
    simp only [Running.keeps, hw, Option.some_or, Option.some.injEq] at hk
    rw [hk, hl] at hl'
    exact absurd (Option.some.inj hl').symm hne
  · rw [ht] at hp
    cases hp
    cases hk

/-! ## Who takes a step -/

theorem not_dormant {fr : Frame} {rest : List Frame} (ht : s.thr t = some ⟨c, fr :: rest⟩)
    (hfr : fr ≠ .loopPark) : ¬ s.Dormant t := by
  rintro ⟨w, rfl, ⟨rest', hp⟩, -⟩
  rw [ht] at hp
  cases hp
  exact hfr rfl

/-- A step is that of one thread, which is not waiting to be signalled. -/
theorem Step.actor (hi : Inv s) (hs : Step s s') :
    ∃ t, ¬ s.Dormant t ∧ ∀ u, u ≠ t → Aside u s s' := by
  have hsame : ∀ {t c fr rest r'} {s' : State}, s.thr t = some ⟨c, fr :: rest⟩ → fr ≠ .loopPark →
      s'.thr = Function.update s.thr t (some r') → s'.lock = s.lock →
      ∃ t, ¬ s.Dormant t ∧ ∀ u, u ≠ t → Aside u s s' := by
    intro t c fr rest r' s' ht hfr hthr hlock
    exact ⟨t, not_dormant ht hfr, fun u hu => .other hu hthr hlock⟩
  have hrel : ∀ {t c fr rest r' L} {s' : State}, s.thr t = some ⟨c, fr :: rest⟩ →
      fr ≠ .loopPark → s'.thr = Function.update s.thr t (some r') → s.lock L = some t →
      s'.lock = Function.update s.lock L none → ∃ t, ¬ s.Dormant t ∧ ∀ u, u ≠ t → Aside u s s' := by
    intro t c fr rest r' L s' ht hfr hthr hl hlock
    refine ⟨t, not_dormant ht hfr, fun u hu => .other_released hu ?_ hl hlock⟩
    rw [hthr, Function.update_of_ne hu]
  cases hs with
  | @quiet t c F F' ht hq =>
    refine ⟨t, ?_, fun u hu => .other hu rfl rfl⟩
    cases hq <;> exact not_dormant ht (by simp)
  | @acquire t c fr rest L ht hw hl =>
    refine ⟨t, not_dormant ht (by rintro rfl; cases hw), fun u hu => ⟨rfl, fun L' => ?_⟩⟩
    by_cases he : L' = L
    · rw [he, hl]
      simp [hu.symm]
    · exact iff_of_eq (congrArg (· = some u) (Function.update_of_ne he _ _))
  | start w ht =>
    refine ⟨.work w, ?_, fun u hu => .other hu rfl rfl⟩
    rintro ⟨w', hw, ⟨rest, hp⟩, -⟩
    rw [← hw, ht] at hp
    cases hp
  | @timerWait t rest ht hl =>
    exact ⟨t, not_dormant ht (by simp), fun u hu => .other_released hu rfl hl rfl⟩
  | @loopWake t w n rest ht hn =>
    refine ⟨t, ?_, fun u hu => .other hu rfl rfl⟩
    rintro ⟨w', rfl, ⟨rest', hp⟩, h0⟩
    rw [ht] at hp
    cases hp
    omega
  | @unlock t c o rest ht => exact hrel ht (by simp) rfl (hi.locks.held _ _ _ _ o ht rfl) rfl
  | @object t f o op rest ht hl =>
    cases hout : ((s.obj o).critical op f).2 with
    | block => exact hsame ht (by simp) rfl (by simp [Outcome.holds])
    | ret | wake g | transfer g | drain gs =>
      exact hrel ht (by simp) rfl hl (by simp [Outcome.holds])
  | copyFiber ht | copyThread ht | push ht | switch ht | store ht | signal ht | signalNext ht
  | loopCopy ht | loopSwitch ht | queryMemory ht | spawnNew _ ht => exact hsame ht (by simp) rfl rfl
  | yieldEmpty ht hl | availEmpty ht hl | availPop ht hl | enqueueIdle ht hl | enqueueTail ht hl
  | listTail ht hl | listTake ht hl | backIdle ht hl | backSteal ht hl | loopIdle ht hl
  | loopPop ht hl | recycle ht hl | timerAdd ht hl | expire _ ht hl | spawnPop ht hl
  | spawnEmpty ht hl => exact hrel ht (by simp) rfl hl rfl

/-- A thread that waits unsignalled on its semaphore stays where it is. -/
theorem Inv.not_moves (hi : Inv s) (h : s.Dormant t) : ¬ s.Moves t := by
  rintro ⟨s', hs, hna⟩
  obtain ⟨t', hd, ha⟩ := hs.actor hi
  refine hna (ha t ?_)
  rintro rfl
  exact hd h

/-! ## The result -/

/-- No work thread can move, and the timer thread is between two passes. -/
structure State.Still (s : State) : Prop where
  work : ∀ w, s.thr (.work w) ≠ none → ¬ s.Moves (.work w)
  timer : s.thr .timer = some ⟨.timer, [.timerTop]⟩
  unlocked : ∀ L, s.lock L ≠ some .timer

namespace State.Still

theorem lock (hs : s.Still) (h : Reached s) (L : Lock) : s.lock L = none := by
  cases hl : s.lock L with
  | none => rfl
  | some t =>
    cases t with
    | timer => exact absurd hl (hs.unlocked L)
    | work w =>
      obtain ⟨r, ht, -⟩ := h.held _ L hl
      exact absurd (h.holder_goes hl) (hs.work w (by simp [ht]))

theorem dormant (hs : s.Still) (h : Reached s) (hw : s.thr (.work w) ≠ none) :
    s.Parked w ∧ s.sem w = 0 := by
  obtain ⟨r, ht⟩ := Option.ne_none_iff_exists'.1 hw
  rcases h.goes ht with hm | ⟨t', -, -, -, -, L, -, -, hl⟩ | ⟨w', he, hp, h0⟩
  · exact absurd hm (hs.work w hw)
  · rw [hs.lock h L] at hl
    cases hl
  · cases he
    exact ⟨hp, h0⟩

/-- What the threads execute is a wait. -/
theorem frames (hs : s.Still) (h : Reached s) (ht : s.thr t = some r) :
    r.frames = [.loopPark] ∧ (∃ w, r.ctx = .loop w) ∨ r = ⟨.timer, [.timerTop]⟩ := by
  cases t with
  | timer =>
    rw [hs.timer] at ht
    exact .inr (Option.some.inj ht).symm
  | work w =>
    obtain ⟨⟨rest, hp⟩, -⟩ := hs.dormant h (w := w) (by simp [ht])
    obtain rfl := (h.inv.contexts.shape_of hp).outer rfl
    rw [hp] at ht
    obtain rfl := Option.some.inj ht
    exact .inl ⟨rfl, w, rfl⟩

theorem idle (hs : s.Still) (h : Reached s) (hw : s.thr (.work w) ≠ none) :
    w ∈ s.idleThreadList := by
  obtain ⟨⟨rest, hp⟩, h0⟩ := hs.dormant h hw
  obtain ⟨p, hp'⟩ := h.inv.threads.placed.exists_place hw
  cases p with
  | idle => exact hp'
  | busy w' =>
    simp only [State.post] at hp'
    cases hr : s.thr (.work w') with
    | none => simp [hr] at hp'
    | some r =>
      obtain ⟨⟨rest', hp₁⟩, -⟩ := hs.dormant h (w := w') (by simp [hr])
      rw [hr] at hp₁
      simp [hr, Option.some.inj hp₁, Running.parked] at hp'
  | inHands t =>
    cases hr : s.thr t with
    | none => simp [State.post, hr] at hp'
    | some r =>
      rcases hs.frames h hr with ⟨hF, -⟩ | rfl <;> simp_all [State.post, Frame.hands]
  | signalled w' =>
    obtain ⟨hne, rfl⟩ := List.mem_replicate.1 hp'
    exact absurd h0 hne

/-- Nothing is stored for a thread, and nothing is in the hands of one. -/
theorem place (hs : s.Still) (h : Reached s) (hf : s.Live f) :
    f ∈ s.fiberList ∨ (∃ o, f ∈ (s.obj o).waiters) ∨ f ∈ s.timeList.map Entry.val ∨
      f ∈ s.disposedFiberList := by
  obtain ⟨p, hp⟩ := h.inv.fibers.exists_place hf
  rcases p with t | p
  · cases hr : s.thr t with
    | none => simp [State.place, hr] at hp
    | some r =>
      simp only [State.place, hr] at hp
      rcases hs.frames h hr with ⟨hF, w, hc⟩ | rfl
      · rw [hF, hc, tokens_loop] at hp
        cases hp
      · cases hp
  · cases p with
    | queue => exact .inl hp
    | wait o => exact .inr (.inl ⟨o, hp⟩)
    | timer => exact .inr (.inr (.inl hp))
    | disposed => exact .inr (.inr (.inr hp))
    | assigned w =>
      have hne : s.stored w ≠ none := by
        intro hn
        simp [State.place, State.linked, hn] at hp
      rcases (h.inv.threads.stored w).1 hne with ⟨t, c, k, rest, ht⟩ | hsem | ⟨t, rest, ht⟩
      · rcases hs.frames h ht with ⟨hF, -⟩ | hr
        · cases hF
        · cases hr
      · by_cases hw : s.thr (.work w) = none
        · have hpost : w ∈ s.post (.signalled w) := List.mem_replicate.2 ⟨Nat.ne_of_gt hsem, rfl⟩
          exact absurd hw (h.inv.threads.placed.live_of_mem hpost)
        · rw [(hs.dormant h hw).2] at hsem
          exact absurd hsem (Nat.lt_irrefl 0)
      · rcases hs.frames h ht with ⟨hF, -⟩ | hr
        · cases hF
        · cases hr

end State.Still

/-- The main thread has been started. -/
theorem Reached.main_started (h : Reached s) : s.thr (.work 0) ≠ none :=
  h.invariant (J := fun s => s.thr (.work 0) ≠ none) (fun _ ⟨_, _, hs⟩ => hs ▸ nofun)
    fun _ _ ht hs => hs.alive ht

/-! ## With the other two locks -/

variable {u u' : LockState}

namespace LockState

/-- The thread `t` has a step, of its own code or with the lock of a section that it has come to. -/
def Moves (u : LockState) (t : Thr) : Prop :=
  ∃ u', LockStep u u' ∧ ¬ (Aside t u.sched u'.sched ∧ u'.detour t = u.detour t)

/-- No work thread can move, and the timer thread is between two passes. -/
structure Still (u : LockState) : Prop where
  work : ∀ w, u.sched.thr (.work w) ≠ none → ¬ u.Moves (.work w)
  timer : u.sched.thr .timer = some ⟨.timer, [.timerTop]⟩
  unlocked : ∀ L, u.sched.lock L ≠ some .timer

/-- A thread that has no section to pass takes its steps. -/
theorem moves_of_sched (hi : Inv u.sched) (hd : u.detour t = none) (hm : u.sched.Moves t) :
    u.Moves t := by
  obtain ⟨s', hs, hna⟩ := hm
  obtain ⟨t', -, ha⟩ := hs.actor hi
  have ht : t' = t := by
    by_contra hne
    exact hna (ha t (Ne.symm hne))
  refine ⟨_, .sched hs fun t₁ ht₁ => ha t₁ ?_, fun hk => hna hk.1⟩
  rintro rfl
  rw [ht] at ht₁
  exact ht₁ hd

theorem moves_of_held {k : Section} (hd : u.detour t = some ⟨k, true⟩) : u.Moves t := by
  refine ⟨_, .unlock t k hd, ?_⟩
  rintro ⟨-, hk⟩
  rw [hd] at hk
  simp at hk

theorem lock_of_not_admits {k k' : Section} (h : k'.admits k = false) : k'.lock = k.lock := by
  cases k <;> cases k' <;> first | rfl | cases h

/-- Before a section: its lock can be taken, or somebody is inside, and goes on. -/
theorem moves_or_waits {k : Section} (hd : u.detour t = some ⟨k, false⟩) :
    u.Moves t ∨ ∃ t' k', u.WaitsFor t t' ∧ u.detour t' = some ⟨k', true⟩ := by
  by_cases hfree : ∀ t' k', u.detour t' = some ⟨k', true⟩ → k'.admits k = true
  · refine .inl ⟨_, .lock t k hd hfree, ?_⟩
    rintro ⟨-, hk⟩
    rw [hd] at hk
    simp at hk
  · obtain ⟨t', k', hd', hk⟩ : ∃ t' k', u.detour t' = some ⟨k', true⟩ ∧ k'.admits k = false := by
      by_contra hno
      refine hfree fun t' k' hd' => by_contra fun hk => hno ⟨t', k', hd', ?_⟩
      exact Bool.eq_false_iff.2 hk
    have hlock := lock_of_not_admits hk
    refine .inr ⟨t', k', ⟨k.lock, ?_, ?_⟩, hd'⟩
    · cases k <;> exact ⟨_, hd, rfl⟩
    · rw [← hlock]
      cases k' <;> exact ⟨_, hd', rfl⟩

/-- A thread before a section is a work thread that has not parked. -/
theorem not_dormant_of_detour (hd : Detours u) {d : Detour} (ht : u.detour t = some d) :
    ¬ u.sched.Dormant t := by
  obtain ⟨c, fr, rest, hthr, hat⟩ := hd.place t d ht
  apply not_dormant hthr
  rintro rfl
  obtain ⟨k, held⟩ := d
  cases k <;> exact hat

theorem not_moves (hi : Inv u.sched) (hd : Detours u) (h : u.sched.Dormant t) : ¬ u.Moves t := by
  have hnone : u.detour t = none := by
    by_contra hne
    obtain ⟨d, ht⟩ := Option.ne_none_iff_exists'.1 hne
    exact not_dormant_of_detour hd ht h
  rintro ⟨u', hs, hna⟩
  apply hna
  cases hs with
  | @sched s' hs ha =>
    have haside : Aside t u.sched s' := by
      by_contra hne
      exact hi.not_moves h ⟨s', hs, hne⟩
    refine ⟨haside, ?_⟩
    show (u.detour t).or (arrive (u.sched.thr t) (s'.thr t)) = u.detour t
    rw [hnone, haside.thr, arrive_same]
    rfl
  | lock t' k ht' | unlock t' k ht' =>
    refine ⟨⟨rfl, fun L => Iff.rfl⟩, Function.update_of_ne ?_ _ _⟩
    rintro rfl
    rw [hnone] at ht'
    cases ht'

end LockState

namespace LockReached

/-- **Progress.** A thread can take its next step, or waits for one that can, or waits on its
semaphore. -/
theorem goes (h : LockReached u) (ht : u.sched.thr t ≠ none) :
    u.Moves t ∨ (∃ t', u.WaitsFor t t' ∧ u.Moves t') ∨ u.sched.Dormant t := by
  have hi := h.sched.inv
  cases hd : u.detour t with
  | some d =>
    obtain ⟨k, held⟩ := d
    cases held with
    | true => exact .inl (LockState.moves_of_held hd)
    | false =>
      rcases LockState.moves_or_waits hd with hm | ⟨t', k', hw, hd'⟩
      · exact .inl hm
      · exact .inr (.inl ⟨t', hw, LockState.moves_of_held hd'⟩)
  | none =>
    obtain ⟨r, ht⟩ := Option.ne_none_iff_exists'.1 ht
    rcases h.sched.goes ht with hm | ⟨t', hne, c, fr, rest, L, ht', hw, hl⟩ | hdormant
    · exact .inl (LockState.moves_of_sched hi hd hm)
    · -- whoever holds a lock of the scheduler is at no section
      have hd' : u.detour t' = none := by
        by_contra hsome
        obtain ⟨d, hd'⟩ := Option.ne_none_iff_exists'.1 hsome
        exact h.detours.clear t' d hd' L hl
      have hwants : u.Wants t (.sched L) := by
        refine ⟨hd, fun hown => hne ?_, c, fr, rest, ht', hw⟩
        exact Option.some.inj (hl.symm.trans hown)
      exact .inr (.inl ⟨t', ⟨_, hwants, hl⟩,
        LockState.moves_of_sched hi hd' (h.sched.holder_goes hl)⟩)
    · exact .inr (.inr hdormant)

/-- When the system stands still, nobody is at a section. -/
theorem detour_of_still (h : LockReached u) (hs : u.Still) (t : Thr) : u.detour t = none := by
  have hwork : ∀ {t d}, u.detour t = some d → ¬ u.Moves t := by
    intro t d hd
    obtain ⟨c, fr, rest, ht, hat⟩ := h.detours.place t d hd
    cases t with
    | work w => exact hs.work w (by simp [ht])
    | timer =>
      rw [hs.timer] at ht
      cases ht
      obtain ⟨k, held⟩ := d
      cases k <;> exact hat.elim
  cases hd : u.detour t with
  | none => rfl
  | some d =>
    obtain ⟨k, held⟩ := d
    cases held with
    | true => exact absurd (LockState.moves_of_held hd) (hwork hd)
    | false =>
      rcases LockState.moves_or_waits hd with hm | ⟨t', k', -, hd'⟩
      · exact absurd hm (hwork hd)
      · exact absurd (LockState.moves_of_held hd') (hwork hd')

theorem still_sched (h : LockReached u) (hs : u.Still) : u.sched.Still where
  work w hw hm := hs.work w hw (LockState.moves_of_sched h.sched.inv (h.detour_of_still hs _) hm)
  timer := hs.timer
  unlocked := hs.unlocked

end LockReached

/-- **The scheduler never deadlocks.** In every reachable state

* a thread can move, or it waits for the lock of one that can move, or it waits on its semaphore and
  has not been signalled;
* once no work thread can move, and the timer thread is between two passes, no lock is held, the
  run queue is empty, every work thread is in `idle_thread_list`, and every fiber that has been
  spawned is in the wait list of an object, asleep, or disposed of. -/
theorem scheduler_goes_on (h : LockReached u) :
    (∀ t, u.sched.thr t ≠ none →
      u.Moves t ∨ (∃ t', u.WaitsFor t t' ∧ u.Moves t') ∨ u.sched.Dormant t ∧ ¬ u.Moves t) ∧
    (u.Still → (∀ t L, ¬ u.Holds t L) ∧ u.sched.fiberList = [] ∧
      (∀ w, u.sched.thr (.work w) ≠ none → w ∈ u.sched.idleThreadList) ∧
      ∀ f, u.sched.spawned f = true → u.sched.recycled f = false →
        (∃ o, f ∈ (u.sched.obj o).waiters) ∨ f ∈ u.sched.timeList.map Entry.val ∨
          f ∈ u.sched.disposedFiberList) := by
  have hr := h.sched
  constructor
  · intro t ht
    rcases h.goes ht with hm | hw | hd
    · exact .inl hm
    · exact .inr (.inl hw)
    · exact .inr (.inr ⟨hd, LockState.not_moves hr.inv h.detours hd⟩)
  · intro hstill
    have hs := h.still_sched hstill
    have hq : u.sched.fiberList = [] :=
      hr.inv.threads.queue.resolve_right (List.ne_nil_of_mem (hs.idle hr hr.main_started))
    refine ⟨fun t L hl => ?_, hq, fun w => hs.idle hr, fun f hsp hrec => ?_⟩
    · rcases hl.cases with ⟨L', -, hl'⟩ | ⟨k, hk, -⟩
      · rw [hs.lock hr L'] at hl'
        cases hl'
      · rw [h.detour_of_still hstill t] at hk
        cases hk
    · rcases hs.place hr ⟨hsp, hrec⟩ with hf | hf
      · rw [hq] at hf
        cases hf
      · exact hf

/-- The main fiber locks a mutex twice, and its thread goes idle: the fiber waits for itself. -/
theorem scheduler_goes_on_run : ∃ u, LockReached u ∧ u.Still ∧
    ∃ o, 0 ∈ (u.sched.obj o).waiters := by
  have h0 : LockReached ⟨.start fun _ => .mutex .create, fun _ => none⟩ :=
    .start ⟨_, fun _ => .inl rfl, rfl⟩
  have h1 := h0.alone (.quiet (t := .work 0) rfl (.object 0 .lock rfl)) rfl rfl rfl
    |>.still (.acquire (t := .work 0) (.object 0) rfl rfl rfl) rfl
    |>.alone (.object (t := .work 0) rfl rfl) rfl rfl rfl
    |>.alone (.quiet (t := .work 0) rfl (.object 0 .lock rfl)) rfl rfl rfl
    |>.still (.acquire (t := .work 0) (.object 0) rfl rfl rfl) rfl
    |>.alone (.object (t := .work 0) rfl rfl) rfl rfl rfl
  have h2 := h1.alone (.copyThread (w := 0) rfl) rfl rfl rfl
    |>.alone (.push (t := .work 0) rfl rfl) rfl rfl rfl
    |>.alone (.switch (t := .work 0) rfl rfl) rfl rfl rfl
    |>.alone (.unlock (t := .work 0) rfl) rfl rfl rfl
    |>.still (.acquire (t := .work 0) .queue rfl rfl rfl) rfl
    |>.alone (.loopIdle (t := .work 0) rfl rfl rfl) rfl rfl rfl
  obtain ⟨s, hs, hwork, hother, htimer, hsem, hlock, htime, hdisposed⟩ : ∃ s,
      LockReached ⟨s, fun _ => none⟩ ∧
      s.thr (.work 0) = some ⟨.loop 0, [.loopPark]⟩ ∧ (∀ w, s.thr (.work (w + 1)) = none) ∧
      s.thr .timer = some ⟨.timer, [.timerTop]⟩ ∧ s.sem 0 = 0 ∧ s.lock .timer = none ∧
      s.timeList = [] ∧ s.disposedFiberList = [] :=
    ⟨_, h2, rfl, fun _ => rfl, rfl, rfl, rfl, rfl, rfl⟩
  have hr : Reached s := hs.sched
  have hstill : LockState.Still ⟨s, fun _ => none⟩ := by
    refine ⟨fun w hw => ?_, htimer, fun L hl => ?_⟩
    · cases w with
      | zero => exact LockState.not_moves hr.inv hs.detours ⟨0, rfl, ⟨[], hwork⟩, hsem⟩
      | succ w => exact absurd (hother w) hw
    · -- between its passes the timer thread could hold only its own lock
      obtain rfl := Option.some.inj (hr.held.keeps htimer hl)
      exact absurd (hl.symm.trans hlock) nofun
  refine ⟨_, hs, hstill, ?_⟩
  obtain ⟨-, -, -, hf⟩ := (scheduler_goes_on hs).2 hstill
  rcases hf 0 hr.spawned_main hr.stays.recycled with h | h | h
  · exact h
  · exact absurd (htime ▸ h) List.not_mem_nil
  · exact absurd (hdisposed ▸ h) List.not_mem_nil

end Sched
