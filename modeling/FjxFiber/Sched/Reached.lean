import FjxFiber.Sched.Threads

/-!
# The invariant holds in every reachable state

The four parts hold after `fiber_scheduler_init` and are kept by every step. The main fiber is
never recycled: it does not exit.
-/

set_option autoImplicit false

namespace Sched

open Lib Lib.StableQueue

variable {s s' : State} {t t' : Thr} {c c' : Ctx} {F F' : List Frame} {f g : Fid} {w : Wid}

/-! ## The initial state -/

theorem waiters_fresh {o : Object} (h : o.Fresh) : o.waiters = [] := by
  rcases h with rfl | ⟨count, bound, rfl⟩ | ⟨size, rfl⟩ <;> rfl

theorem start_thr {obj : Oid → Object} (ht : (State.start obj).thr t = some ⟨c, F⟩) :
    (t = .work 0 ∧ c = .fiber 0 ∧ F = [.user]) ∨ (t = .timer ∧ c = .timer ∧ F = [.timerTop]) := by
  rcases t with (_ | w) | _ <;> cases ht
  · exact .inl ⟨rfl, rfl, rfl⟩
  · exact .inr ⟨rfl, rfl, rfl⟩

theorem start_saved {obj : Oid → Object} {n : Nat} (hs : (State.start obj).saved c = some n) :
    c = .loop 0 ∧ n = 1 := by
  rcases c with f | (_ | w) | _ <;> cases hs
  exact ⟨rfl, rfl⟩

theorem Contexts.start (obj : Oid → Object) : Contexts (.start obj) := by
  refine ⟨fun t c F ht => ?_, fun t t' c F F' ht ht' => ?_, fun t c F ht => ?_,
    fun f n hs => ?_, fun f hf => ?_, fun w c F ht hc => ?_, fun w ht => ?_, fun c n hs => ?_,
    fun t f d src rest ht => ?_, fun t f d src rest ht => ?_, fun w g hs => ?_⟩
  · rcases start_thr ht with ⟨rfl, rfl, rfl⟩ | ⟨rfl, rfl, rfl⟩
    · exact ⟨.outermost (.fiber 0), 0, rfl⟩
    · exact ⟨.outermost .timer, rfl⟩
  · rcases start_thr ht with ⟨rfl, rfl, rfl⟩ | ⟨rfl, rfl, rfl⟩ <;>
      rcases start_thr ht' with ⟨rfl, hc, rfl⟩ | ⟨rfl, hc, rfl⟩ <;> first | rfl | cases hc
  · rcases start_thr ht with ⟨rfl, rfl, rfl⟩ | ⟨rfl, rfl, rfl⟩ <;> rfl
  · cases (start_saved hs).1
  · rw [show f = 0 from of_decide_eq_true hf]
    exact .inr ⟨.work 0, [.user], rfl⟩
  · rcases start_thr ht with ⟨hw, rfl, rfl⟩ | ⟨hw, rfl, rfl⟩
    · cases hw
      exact ⟨rfl, rfl⟩
    · cases hw
  · rcases w with _ | w
    · cases ht
    · rfl
  · obtain ⟨rfl, rfl⟩ := start_saved hs
    exact ⟨rfl, .inl rfl⟩
  · rcases start_thr ht with ⟨-, -, hF⟩ | ⟨-, -, hF⟩ <;> cases hF
  · rcases start_thr ht with ⟨-, -, hF⟩ | ⟨-, -, hF⟩ <;> cases hF
  · cases hs

theorem Locks.start (obj : Oid → Object) : Locks (.start obj) := by
  refine ⟨fun t c fr rest o ht hg => ?_, fun t f fr rest o ht hp => ?_⟩
  · rcases start_thr ht with ⟨-, -, hF⟩ | ⟨-, -, hF⟩ <;> cases hF <;> cases hg
  · rcases start_thr ht with ⟨-, -, hF⟩ | ⟨-, -, hF⟩ <;> cases hF <;> cases hp

theorem place_start {obj : Oid → Object} (ho : ∀ o, (obj o).Fresh) (p : Thr ⊕ Home) :
    (State.start obj).place p = if p = .inl (.work 0) then [0] else [] := by
  rcases p with ((_ | w) | _) | p
  · rfl
  · rfl
  · rfl
  · cases p with
    | wait o => exact waiters_fresh (ho o)
    | queue | timer | disposed | assigned => rfl

theorem fibers_start {obj : Oid → Object} (ho : ∀ o, (obj o).Fresh) :
    Placed (State.start obj).place (State.start obj).Live := by
  have hempty : Placed (fun _ : Thr ⊕ Home => ([] : List Fid)) fun _ => False :=
    .empty (fun _ => rfl) fun _ h => h
  refine hempty.born (p := .inl (.work 0)) (x := 0) id (.refl _) (fun r hr => ?_) fun a => ?_
  · rw [place_start ho, if_neg hr]
  · simp [State.Live, State.start]

theorem Threads.start (obj : Oid → Object) : Threads (.start obj) := by
  refine ⟨?_, fun w => ?_, .inl rfl⟩
  · have hempty : Placed (fun _ : Post => ([] : List Wid)) fun _ => False :=
      .empty (fun _ => rfl) fun _ h => h
    refine hempty.born (p := .busy 0) (x := 0) id (.refl _) (fun r hr => ?_) fun a => ?_
    · rcases r with (_ | w) | _ | ((_ | w) | _) | w <;> first | rfl | exact absurd rfl hr
    · rcases a with _ | a <;> simp [State.start]
  · refine iff_of_false (fun h => h rfl) ?_
    rintro (⟨t, c, k, rest, ht⟩ | hs | ⟨t, rest, ht⟩)
    · rcases start_thr ht with ⟨-, -, hF⟩ | ⟨-, -, hF⟩ <;> cases hF
    · exact absurd hs (Nat.lt_irrefl 0)
    · rcases start_thr ht with ⟨-, -, hF⟩ | ⟨-, -, hF⟩ <;> cases hF

theorem Inv.start {obj : Oid → Object} (ho : ∀ o, (obj o).Fresh) : Inv (.start obj) where
  contexts := .start obj
  fibers := fibers_start ho
  threads := .start obj
  locks := .start obj
  recycled f hf := by cases hf

/-! ## Recycled fibers -/

theorem Inv.recycled_step (h : Inv s) (hs : Step s s') (f : Fid) (hf : s'.recycled f = true) :
    s'.spawned f = true := by
  cases hs with
  | @queryMemory t c g rest ht =>
    by_cases he : f = g
    · have hp := mem_place_of_held (g := f) ht (by simp [Frame.held, he])
      exact (h.fibers.live_of_mem hp).1
    · exact h.recycled f ((Function.update_of_ne he _ _).symm.trans hf)
  | @spawnNew t c rest g ht hg =>
    by_cases he : f = g
    · rw [he]
      exact Function.update_self _ _ _
    · exact (Function.update_of_ne he _ _).trans (h.recycled f hf)
  | _ => exact h.recycled f hf

/-- **Every step keeps the invariant.** -/
theorem Inv.step (h : Inv s) (hs : Step s s') : Inv s' where
  contexts := h.contexts_step hs
  fibers := h.fibers_step hs
  threads := h.threads_step hs
  locks := h.locks_step hs
  recycled := h.recycled_step hs

/-- **The invariant holds in every reachable state.** -/
theorem Reached.inv (h : Reached s) : Inv s :=
  h.invariant (fun _ ⟨_, ho, hs⟩ => hs ▸ Inv.start ho) fun _ _ hi hs => hi.step hs

/-! ## The main fiber -/

/-- The fiber that a call is about to retire, or is taking apart. -/
def Frame.retires : Frame → List Fid
  | getAvailable (.recycle f) | copy _ (.recycle f) | push (.recycle f) _ | switch (.recycle f) _
  | recycle f | queryMemory f => [f]
  | _ => []

/-- The main fiber is neither retired nor about to be. -/
structure Stays (s : State) : Prop where
  frames : ∀ t c F, s.thr t = some ⟨c, F⟩ → 0 ∉ F.flatMap Frame.retires
  disposed : 0 ∉ s.disposedFiberList
  recycled : s.recycled 0 = false

theorem Stays.keep (h : Stays s) (hthr : s'.thr = Function.update s.thr t (some ⟨c', F'⟩))
    (hF : 0 ∉ F'.flatMap Frame.retires) (hd : 0 ∉ s'.disposedFiberList)
    (hr : s'.recycled 0 = false) : Stays s' := by
  refine ⟨fun t' c F ht' => ?_, hd, hr⟩
  rcases thr_update hthr ht' with ⟨-, he⟩ | ⟨-, ht'⟩
  · cases he
    exact hF
  · exact h.frames t' c F ht'

theorem Deferred.frame_retires (d : Deferred) (src : Option Fid) :
    d.frame.retires = (Frame.switch d src).retires := by
  cases d <;> rfl

theorem Quiet.retires (hq : Quiet s c F F') (h : 0 ∉ F.flatMap Frame.retires) :
    0 ∉ F'.flatMap Frame.retires := by
  cases hq with
  | object o op => cases op <;> exact h
  | exit hf => exact fun hm => (List.mem_cons.1 hm).elim (fun he => hf he.symm) h
  | channelClosed | channelOpen | spawn | yield | sleep | sleepLate | sleepEarly | listDone
  | pairDone | pairBack | pairMore | pairNext => exact h

theorem Stays.step (hi : Inv s) (h : Stays s) (hs : Step s s') : Stays s' := by
  have hf : ∀ {t c F}, s.thr t = some ⟨c, F⟩ → 0 ∉ F.flatMap Frame.retires :=
    fun ht => h.frames _ _ _ ht
  have hkeep : ∀ {t c c' F F'} {s' : State}, s.thr t = some ⟨c, F⟩ →
      s'.thr = Function.update s.thr t (some ⟨c', F'⟩) →
      s'.disposedFiberList = s.disposedFiberList → s'.recycled = s.recycled →
      (F'.flatMap Frame.retires).Sublist (F.flatMap Frame.retires) → Stays s' :=
    fun ht hthr hd hr hsub => h.keep hthr (fun hm => hf ht (hsub.subset hm)) (hd ▸ h.disposed)
      (hr ▸ h.recycled)
  cases hs with
  | quiet ht hq => exact h.keep rfl (hq.retires (hf ht)) h.disposed h.recycled
  | acquire L ht hw hl => exact { h with }
  | start w ht => exact h.keep rfl List.not_mem_nil h.disposed h.recycled
  | @availEmpty t c d rest ht hl hq hd | @availPop t c d rest g l ht hl hq
  | @copyFiber t f g d rest ht | @copyThread t f d rest ht | @push t f d src rest x n ht hd =>
    exact hkeep ht rfl rfl rfl (by cases d <;> exact .refl _)
  | @switch t f d src rest x n ht hd =>
    obtain ⟨rfl, -, rfl, hcut⟩ := hi.switch_target ht hd
    rw [hcut]
    refine hkeep ht rfl rfl rfl ?_
    rw [List.flatMap_cons, List.flatMap_cons, d.frame_retires src]
    refine List.Sublist.append (.refl _) ?_
    cases target t src <;> exact .refl _
  | loopSwitch ht hd =>
    obtain ⟨g, rfl, -, -, hcut⟩ := hi.loopSwitch_target ht hd
    rw [hcut]
    exact h.keep rfl List.not_mem_nil h.disposed h.recycled
  | @object t f o op rest ht hl =>
    refine hkeep ht rfl rfl rfl ?_
    cases ((s.obj o).critical op f).2 <;> exact .refl _
  | yieldEmpty ht | enqueueIdle ht | enqueueTail ht | store ht | signal ht | signalNext ht
  | listTail ht | listTake ht | backIdle ht | backSteal ht | loopIdle ht | loopPop ht | loopWake ht
  | loopCopy ht | unlock ht | timerAdd ht | expire _ ht | spawnEmpty ht | spawnNew _ ht =>
    exact hkeep ht rfl rfl rfl (List.sublist_append_right _ _)
  | timerWait ht hl => exact { h with }
  | @recycle t c f rest ht hl =>
    have hm := hf ht
    refine h.keep rfl (fun hr => hm (List.mem_append_right _ hr)) (fun hd => ?_) h.recycled
    rcases List.mem_append.1 hd with hd | hd
    · exact h.disposed hd
    · exact hm (List.mem_append_left _ hd)
  | @spawnPop t c f l rest ht hl hq =>
    have hd := h.disposed
    rw [hq] at hd
    refine h.keep rfl (fun hr => ?_) (fun hm => hd (.tail _ hm)) h.recycled
    rcases List.mem_cons.1 hr with hr | hr
    · exact hd (hr ▸ List.mem_cons_self)
    · exact hf ht hr
  | @queryMemory t c f rest ht =>
    have hm := hf ht
    refine h.keep rfl (fun hr => hm (List.mem_append_right _ hr)) h.disposed ?_
    have hne : 0 ≠ f := fun he => hm (he ▸ List.mem_cons_self)
    exact (Function.update_of_ne hne _ _).trans h.recycled

theorem Stays.start (obj : Oid → Object) : Stays (.start obj) := by
  refine ⟨fun t c F ht => ?_, List.not_mem_nil, rfl⟩
  rcases start_thr ht with ⟨-, -, rfl⟩ | ⟨-, -, rfl⟩ <;> exact List.not_mem_nil

/-- The main fiber is never recycled. -/
theorem Reached.stays (h : Reached s) : Stays s :=
  h.invariant_from (fun _ => Reached.inv) (fun _ ⟨obj, _, hs⟩ => hs ▸ Stays.start obj)
    fun _ _ hi hs => hs.step hi

end Sched
