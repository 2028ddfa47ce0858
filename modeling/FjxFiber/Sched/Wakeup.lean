import FjxFiber.Sched.Reached

/-!
# No lost wakeup

No fiber is runnable while a thread is idle; every work thread is at one post; a thread that has
gone idle goes on only with a fiber that a call has stored for it since.
-/

set_option autoImplicit false

namespace Sched

open Lib

variable {s s' : State} {t : Thr} {w : Wid} {g : Fid} {rest : List Frame}

/-! ## What happens to an idle thread -/

/-- The thread waits on its semaphore. -/
def State.Parked (s : State) (w : Wid) : Prop :=
  ∃ rest, s.thr (.work w) = some ⟨.loop w, .loopPark :: rest⟩

/-- The step in which a call of `enqueue_fiber` or `enqueue_fiber_list` stores the `stack_top` of
`g` in `thread_fiber` of `w`. -/
structure Stores (w : Wid) (g : Fid) (s s' : State) : Prop where
  step : Step s s'
  call : ∃ t c k rest, s.thr t = some ⟨c, .store g w k :: rest⟩
  stored : s'.stored w = some g
  threadFiber : s'.threadFiber w = s.desc g

/-- A call of `enqueue_fiber` or `enqueue_fiber_list` is in progress. -/
def Frame.enqueues : Frame → Bool
  | enqueue _ | store _ _ _ | signal _ _ | enqueueList _ | pairUp _ _ | giveBack _ => true
  | _ => false

theorem Frame.enqueues_of_hands {fr : Frame} (h : w ∈ fr.hands) : fr.enqueues = true := by
  cases fr <;> first | rfl | cases h

/-- Only its semaphore moves a thread that waits on it. -/
theorem Step.parked (hs : Step s s') (hw : s.Parked w) (hsem : s.sem w = 0) : s'.Parked w := by
  obtain ⟨rest₀, hw⟩ := hw
  have hne : ∀ {t c fr rest} {r : Option Running}, s.thr t = some ⟨c, fr :: rest⟩ →
      fr ≠ .loopPark → Function.update s.thr t r (.work w) = some ⟨.loop w, .loopPark :: rest₀⟩ :=
    fun {t c fr rest r} ht hfr => by
      rw [Function.update_of_ne (ne_of_frame hw ht hfr.symm), hw]
  refine ⟨rest₀, ?_⟩
  cases hs with
  | @quiet t c F F' ht hq =>
    have he : Thr.work w ≠ t := fun he => by
      rw [← he, hw] at ht
      cases ht
      cases hq
    exact (Function.update_of_ne he _ _).trans hw
  | acquire | timerWait => exact hw
  | start w' ht =>
    have he : Thr.work w ≠ .work w' := fun he => by
      rw [← he, hw] at ht
      cases ht
    exact (Function.update_of_ne he _ _).trans hw
  | @loopWake t w' n rest ht hn =>
    have he : Thr.work w ≠ t := fun he => by
      rw [← he, hw] at ht
      cases ht
      omega
    exact (Function.update_of_ne he _ _).trans hw
  | yieldEmpty ht | availEmpty ht | availPop ht | copyFiber ht | copyThread ht | push ht
  | switch ht | enqueueIdle ht | enqueueTail ht | store ht | signal ht | signalNext ht
  | listTail ht | listTake ht | backIdle ht | backSteal ht | loopIdle ht | loopPop ht
  | loopCopy ht | loopSwitch ht | unlock ht | recycle ht | timerAdd ht | expire _ ht | object ht
  | spawnPop ht | spawnEmpty ht | queryMemory ht | spawnNew _ ht => exact hne ht nofun

/-- What is stored for a thread that waits on its semaphore, a call has stored. -/
theorem Step.stores (hs : Step s s') (hi : Inv s) (hw : s.Parked w) (hn : s.stored w = none) :
    s'.stored w = none ∨ ∃ g, Stores w g s s' := by
  obtain ⟨rest₀, hw⟩ := hw
  have hstep := hs
  cases hs with
  | @store t c g w' k rest ht =>
    by_cases he : w = w'
    · subst he
      exact .inr ⟨g, hstep, ⟨t, c, k, rest, ht⟩, Function.update_self _ _ _,
        Function.update_self _ _ _⟩
    · exact .inl ((Function.update_of_ne he _ _).trans hn)
  | @loopCopy t w' g rest ht =>
    have he : w ≠ w' := fun he => by
      subst he
      rw [(hi.contexts.shape _ _ _ ht).2, hw] at ht
      cases ht
    exact .inl ((Function.update_of_ne he _ _).trans hn)
  | @loopSwitch t w' x n rest ht hd =>
    by_cases he : w = w'
    · subst he
      exact .inl (Function.update_self _ _ _)
    · exact .inl ((Function.update_of_ne he _ _).trans hn)
  | _ => exact .inl hn

/-- Nothing is stored for a thread in `idle_thread_list`, which waits on its semaphore. -/
theorem Inv.idle (h : Inv s) (hw : w ∈ s.idleThreadList) : s.Parked w ∧ s.stored w = none := by
  have hp := h.parked_of_post (p := .idle) hw nofun
  refine ⟨hp, h.unstored (p := .idle) hw nofun nofun fun rest ht => ?_⟩
  obtain ⟨rest', hr⟩ := hp
  rw [hr] at ht
  cases ht

/-- **A thread that went idle goes on with a fiber that was stored for it since.** -/
theorem Inv.woken (h : Reached s) (hw : w ∈ s.idleThreadList)
    (hr : Relation.ReflTransGen Step s s')
    (ht : s'.thr (.work w) = some ⟨.loop w, .loopSwitch :: rest⟩) :
    ∃ u u' g, Relation.ReflTransGen Step s u ∧ Stores w g u u' ∧
      Relation.ReflTransGen Step u' s' := by
  have hrun : (s'.Parked w ∧ s'.stored w = none) ∨
      ∃ u u' g, Relation.ReflTransGen Step s u ∧ Stores w g u u' ∧
        Relation.ReflTransGen Step u' s' := by
    clear ht
    induction hr with
    | refl => exact .inl (h.inv.idle hw)
    | @tail u u' hsu hs ih =>
      have hi : Inv u := Reached.inv (h.run hsu)
      rcases ih with ⟨hp, hn⟩ | ⟨u₁, u₂, g, h1, h2, h3⟩
      · rcases hs.stores hi hp hn with hn' | ⟨g, hg⟩
        · have hsem : u.sem w = 0 := by
            by_contra hne
            exact (hi.threads.stored w).2 (.inr (.inl (Nat.pos_of_ne_zero hne))) hn
          exact .inl ⟨hs.parked hp hsem, hn'⟩
        · exact .inr ⟨u, u', g, hsu, hg, .refl⟩
      · exact .inr ⟨u₁, u₂, g, h1, h2, h3.tail hs⟩
  rcases hrun with ⟨⟨rest', hp⟩, -⟩ | hrun
  · rw [hp] at ht
    cases ht
  · exact hrun

/-! ## The result -/

theorem Inv.sem_le (h : Inv s) (w : Wid) : s.sem w ≤ 1 :=
  List.nodup_replicate.1 (h.threads.placed.nodup (.signalled w))

/-- A thread whose semaphore has been signalled has a fiber to switch to. -/
theorem Inv.signalled (h : Inv s) (hw : 0 < s.sem w) :
    w ∈ s.post (.signalled w) ∧ ∃ g, s.stored w = some g ∧
      s.threadFiber w = some ⟨.fiber g, 1⟩ ∧ s.saved (.fiber g) = some 1 := by
  obtain ⟨g, hg⟩ := Option.ne_none_iff_exists'.1 ((h.threads.stored w).2 (.inr (.inl hw)))
  exact ⟨List.mem_replicate.2 ⟨Nat.ne_of_gt hw, rfl⟩, g, hg, h.contexts.stored w g hg,
    (h.assigned_suspended hg).1⟩

/-- While no enqueue is in progress, an idle thread has nothing to do. -/
theorem Inv.queue_empty (h : Inv s)
    (hno : ∀ t r, s.thr t = some r → ∀ fr ∈ r.frames, fr.enqueues = false) (hw : s.Parked w)
    (hsem : s.sem w = 0) : s.fiberList = [] := by
  obtain ⟨rest, hw⟩ := hw
  obtain ⟨p, hp⟩ := h.threads.placed.exists_place (a := w) (by simp [hw])
  cases p with
  | busy w' =>
    simp only [State.post] at hp
    cases hr : s.thr (.work w') with
    | none => simp [hr] at hp
    | some r =>
      by_cases hk : r.parked = true
      · simp [hr, hk] at hp
      · have he : w = w' := by simpa [hr, hk] using hp
        subst he
        rw [hw] at hr
        cases hr
        exact absurd rfl hk
  | idle => exact h.threads.queue.resolve_right (List.ne_nil_of_mem hp)
  | inHands t =>
    cases hr : s.thr t with
    | none => simp [State.post, hr] at hp
    | some r =>
      simp only [State.post, hr] at hp
      obtain ⟨fr, hfr, hh⟩ := List.mem_flatMap.1 hp
      have he := Frame.enqueues_of_hands hh
      rw [hno t r hr fr hfr] at he
      cases he
  | signalled w' =>
    obtain ⟨hne, rfl⟩ := List.mem_replicate.1 hp
    exact absurd hsem hne

/-- **No lost wakeup.** In every reachable state

* the run queue or the idle list is empty;
* every work thread that was started is at exactly one post, once: busy, idle, in the hands of one
  enqueue, or signalled;
* its semaphore counts at most one signal, and then a suspended fiber is stored for it;
* it goes on, once it went idle, only with a fiber that an enqueue stored for it since;
* while no enqueue is in progress, the run queue is empty if a thread waits unsignalled. -/
theorem no_lost_wakeup (h : Reached s) :
    (s.fiberList = [] ∨ s.idleThreadList = []) ∧
    (∀ w, s.thr (.work w) ≠ none →
      ∃ p, (s.post p).count w = 1 ∧ ∀ q, q ≠ p → w ∉ s.post q) ∧
    (∀ w, s.sem w ≤ 1 ∧ (0 < s.sem w → w ∈ s.post (.signalled w) ∧ ∃ g, s.stored w = some g ∧
      s.threadFiber w = some ⟨.fiber g, 1⟩ ∧ s.saved (.fiber g) = some 1)) ∧
    (∀ w s' rest, w ∈ s.idleThreadList → Relation.ReflTransGen Step s s' →
      s'.thr (.work w) = some ⟨.loop w, .loopSwitch :: rest⟩ →
        ∃ u u' g, Relation.ReflTransGen Step s u ∧ Stores w g u u' ∧
          Relation.ReflTransGen Step u' s') ∧
    ((∀ t r, s.thr t = some r → ∀ fr ∈ r.frames, fr.enqueues = false) →
      ∀ w, s.Parked w → s.sem w = 0 → s.fiberList = []) :=
  ⟨h.inv.threads.queue, fun w => (h.inv.threads.placed w).1,
    fun w => ⟨h.inv.sem_le w, h.inv.signalled⟩, fun _ _ _ hw hr ht => Inv.woken h hw hr ht,
    fun hno _ => h.inv.queue_empty hno⟩

/-- A thread goes idle, the main fiber spawns a fiber, and the thread is woken with it. -/
theorem no_lost_wakeup_run : ∃ s s', Reached s ∧ 1 ∈ s.idleThreadList ∧ s.fiberList = [] ∧
    s'.thr (.work 1) = some ⟨.loop 1, [.loopSwitch]⟩ ∧
    ∃ u u' g, Relation.ReflTransGen Step s u ∧ Stores 1 g u u' ∧
      Relation.ReflTransGen Step u' s' := by
  have h0 : Reached (.start fun _ => .mutex .create) := .start ⟨_, fun _ => .inl rfl, rfl⟩
  have h1 := h0.next (.start 1 rfl) |>.next (.acquire (t := .work 1) .queue rfl rfl rfl)
    |>.next (.loopIdle (t := .work 1) rfl rfl rfl)
  have hrefl : ∀ {s}, Reached s → Relation.ReflTransGen Step s s := fun _ => .refl
  have h2 := (hrefl h1).tail (.quiet (t := .work 0) rfl .spawn)
    |>.tail (.acquire (t := .work 0) .disposed rfl rfl rfl)
    |>.tail (.spawnEmpty (t := .work 0) rfl rfl rfl) |>.tail (.spawnNew (t := .work 0) 1 rfl rfl)
    |>.tail (.acquire (t := .work 0) .queue rfl rfl rfl)
    |>.tail (.enqueueIdle (t := .work 0) rfl rfl rfl) |>.tail (.store (t := .work 0) rfl)
    |>.tail (.signal (t := .work 0) rfl) |>.tail (.loopWake (t := .work 1) rfl rfl)
  exact ⟨_, _, h1, List.mem_cons_self, rfl, rfl,
    (no_lost_wakeup h1).2.2.2.1 1 _ _ List.mem_cons_self h2 rfl⟩

end Sched
