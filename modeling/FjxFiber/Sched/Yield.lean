import FjxFiber.Sched.Queue

/-!
# Yielding on one work thread

After `fiber_scheduler_init(0)` the main thread is the only work thread. A fiber that yields while
the run queue is not empty is queued behind the fibers in it, and the thread, which is never idle
until the yielder goes on, resumes them in their order (`yield_order`).

`Solo.effect` says what a step does to the run queue and to the fiber that the thread is about to
resume; `Ahead` below is the invariant of the runs from the call on.
-/

set_option autoImplicit false

namespace Sched

open Lib

variable {s s' : State} {t t' : Thr} {c c' : Ctx} {F F' : List Frame} {f g A : Fid} {w : Wid}

/-! ## Resumptions -/

/-- The fiber `g` is resumed. -/
def Resumed (g : Fid) (s s' : State) : Prop := ¬ s.Runs (.fiber g) ∧ s'.Runs (.fiber g)

/-- `g` has been popped to be resumed, or it is being stored or has been stored for a thread. -/
def State.OnWay (s : State) (g : Fid) : Prop :=
  (∃ t, g ∈ s.going t) ∨ ∃ w, s.stored w = some g

theorem Inv.onWay_not_runs (h : Inv s) (hg : s.OnWay g) : ¬ s.Runs (.fiber g) := by
  rcases hg with ⟨t, hg⟩ | ⟨w, hg⟩
  · exact h.way_not_runs (List.mem_append_left _ hg)
  · exact h.linked_not_runs (p := .assigned w) (by simp [State.linked, hg]) nofun

/-- A thread that executes a fiber executed it before, or has switched to it. -/
theorem Step.runs (hi : Inv s) (hs : Step s s') (ht' : s'.thr t = some ⟨.fiber g, F'⟩) :
    (∃ F, s.thr t = some ⟨.fiber g, F⟩) ∨ g ∈ s.going t ∨ ∃ w, s.stored w = some g := by
  have hkeep : ∀ {t₁ c F F₁} {s' : State}, s.thr t₁ = some ⟨c, F⟩ →
      s'.thr = Function.update s.thr t₁ (some ⟨c, F₁⟩) → s'.thr t = some ⟨.fiber g, F'⟩ →
      (∃ F, s.thr t = some ⟨.fiber g, F⟩) ∨ g ∈ s.going t ∨ ∃ w, s.stored w = some g :=
    fun ht hthr ht' => .inl (runs_before ht hthr ht')
  cases hs with
  | start w ht =>
    rcases thr_update rfl ht' with ⟨-, he⟩ | ⟨-, ht'⟩
    · cases he
    · exact .inl ⟨_, ht'⟩
  | acquire | timerWait => exact .inl ⟨_, ht'⟩
  | @switch t₁ f d src rest x n ht hd =>
    obtain ⟨rfl, -, -, hcut⟩ := hi.switch_target ht hd
    rw [hcut] at ht'
    rcases thr_update rfl ht' with ⟨rfl, he⟩ | ⟨-, ht'⟩
    · injection he with hc
      rw [target_eq_fiber hc.symm] at ht
      exact .inr (.inl (by simp [going_thr ht, Frame.going]))
    · exact .inl ⟨_, ht'⟩
  | @loopSwitch t₁ w x n rest ht hd =>
    obtain ⟨g', rfl, hw, -, hcut⟩ := hi.loopSwitch_target ht hd
    rw [hcut] at ht'
    rcases thr_update rfl ht' with ⟨rfl, he⟩ | ⟨-, ht'⟩
    · cases he
      exact .inr (.inr ⟨w, hw⟩)
    · exact .inl ⟨_, ht'⟩
  | quiet ht | yieldEmpty ht | availEmpty ht | availPop ht | copyFiber ht | copyThread ht | push ht
  | enqueueIdle ht | enqueueTail ht | store ht | signal ht | signalNext ht | listTail ht
  | listTake ht | backIdle ht | backSteal ht | loopIdle ht | loopPop ht | loopWake ht | loopCopy ht
  | unlock ht | recycle ht | timerAdd ht | expire _ ht | object ht | spawnPop ht | spawnEmpty ht
  | queryMemory ht | spawnNew _ ht => exact hkeep ht rfl ht'

/-- A fiber that is resumed was on its way. -/
theorem Resumed.onWay (h : Resumed g s s') (hi : Inv s) (hs : Step s s') : s.OnWay g := by
  obtain ⟨hn, t, F', ht'⟩ := h
  rcases hs.runs hi ht' with ⟨F, ht⟩ | hg | hw
  · exact absurd ⟨t, F, ht⟩ hn
  · exact .inl ⟨t, hg⟩
  · exact .inr hw

/-! ## New frames -/

/-- A frame that is neither the wait of an idle thread nor about to give back no thread. -/
def Frame.settled : Frame → Bool
  | loopPark | giveBack [] => false
  | _ => true

theorem settled_base (c : Ctx) : (base c).settled = true := by cases c <;> rfl

theorem Quiet.settled (hq : Quiet s c F F') (h : Shape c F) :
    ∀ fr ∈ F'.head?, fr.settled = true := by
  cases hq with
  | object o op => exact head_cons (by cases op <;> rfl)
  | channelClosed | sleepLate | listDone | pairDone =>
    obtain ⟨rfl, -⟩ := h.inner rfl
    exact head_cons (settled_base c)
  | spawn | yield | exit | sleep | channelOpen | sleepEarly | pairBack | pairMore | pairNext =>
    exact head_cons rfl

/-- A thread goes on with a settled frame, unless its loop finds no fiber. -/
theorem Step.settled (hi : Inv s) (hs : Step s s') {fr : Frame} {rest : List Frame}
    (ht' : s'.thr t = some ⟨c', fr :: rest⟩) :
    s.thr t = some ⟨c', fr :: rest⟩ ∨ fr.settled = true ∨
      (fr = .loopPark ∧ s.fiberList = [] ∧ ∃ w, s.thr t = some ⟨.loop w, [.loopTop]⟩) := by
  have hnew : ∀ {t₁ c F} {s' : State}, s'.thr = Function.update s.thr t₁ (some ⟨c, F⟩) →
      (∀ x ∈ F.head?, x.settled = true) → s'.thr t = some ⟨c', fr :: rest⟩ →
      s.thr t = some ⟨c', fr :: rest⟩ ∨ fr.settled = true ∨
        (fr = .loopPark ∧ s.fiberList = [] ∧ ∃ w, s.thr t = some ⟨.loop w, [.loopTop]⟩) := by
    intro t₁ c F s' hthr hF ht'
    rcases thr_update hthr ht' with ⟨-, he⟩ | ⟨-, ht'⟩
    · cases he
      exact .inr (.inl (hF fr rfl))
    · exact .inl ht'
  cases hs with
  | quiet ht hq => exact hnew rfl (hq.settled (hi.contexts.shape_of ht)) ht'
  | acquire | timerWait => exact .inl ht'
  | @switch t₁ f d src rest x n ht hd =>
    obtain ⟨rfl, -, -, hcut⟩ := hi.switch_target ht hd
    rw [hcut] at ht'
    exact hnew rfl (head_cons (by cases d <;> rfl)) ht'
  | @loopSwitch t₁ w x n rest ht hd =>
    obtain ⟨g, rfl, -, -, hcut⟩ := hi.loopSwitch_target ht hd
    rw [hcut] at ht'
    exact hnew rfl (head_cons rfl) ht'
  | @loopIdle t₁ w rest ht hl hq =>
    obtain rfl := (hi.contexts.shape_of ht).outer rfl
    rcases thr_update rfl ht' with ⟨rfl, he⟩ | ⟨-, ht'⟩
    · cases he
      exact .inr (.inr ⟨rfl, hq, w, ht⟩)
    · exact .inl ht'
  | @object t₁ f o op rest ht hl =>
    obtain ⟨rfl, -⟩ := (hi.contexts.shape_of ht).inner rfl
    refine hnew rfl ?_ ht'
    cases ((s.obj o).critical op f).2 <;> exact head_cons rfl
  | yieldEmpty ht | enqueueTail ht | signal ht | listTail ht | backIdle ht | unlock ht | recycle ht
  | timerAdd ht =>
    obtain ⟨rfl, -⟩ := (hi.contexts.shape_of ht).inner rfl
    exact hnew rfl (head_cons (settled_base _)) ht'
  | start _ ht | availEmpty ht | availPop ht | copyFiber ht | copyThread ht | push ht
  | enqueueIdle ht | store ht | signalNext ht | listTake ht | backSteal ht | loopPop ht
  | loopWake ht | loopCopy ht | expire _ ht | spawnPop ht | spawnEmpty ht | queryMemory ht
  | spawnNew _ ht => exact hnew rfl (head_cons rfl) ht'

/-- A call that is about to give back threads has some. -/
theorem Reached.giveBack (h : Reached s) : ∀ t c ths rest,
    s.thr t = some ⟨c, .giveBack ths :: rest⟩ → ths ≠ [] := by
  refine h.invariant_from (J := fun s => ∀ t c ths rest,
    s.thr t = some ⟨c, .giveBack ths :: rest⟩ → ths ≠ []) (fun _ => Reached.inv) ?_ ?_
  · intro s ⟨obj, _, hs⟩ t c ths rest ht
    rw [hs] at ht
    rcases start_thr ht with ⟨-, -, hF⟩ | ⟨-, -, hF⟩ <;> cases hF
  · intro s s' hi hb hs t c ths rest ht'
    rcases hs.settled hi ht' with ht | hset | ⟨hfr, -⟩
    · exact hb t c ths rest ht
    · intro he
      subst he
      cases hset
    · cases hfr

/-! ## One work thread -/

/-- A step without any work thread but the main thread. -/
def SoloStep (s s' : State) : Prop := Step s s' ∧ ∀ w, w ≠ 0 → s'.thr (.work w) = none

/-- The states reached after `fiber_scheduler_init(0)`. -/
abbrev SoloReached : State → Prop :=
  Reachable (fun s => ∃ obj, (∀ o, (obj o).Fresh) ∧ s = .start obj) SoloStep

theorem SoloReached.reached (h : SoloReached s) : Reached s := h.mono fun _ _ hs => hs.1

/-- What is known of the states reached on one work thread. -/
structure Solo (s : State) : Prop where
  inv : Inv s
  only : ∀ w, w ≠ 0 → s.thr (.work w) = none
  back : ∀ t c ths rest, s.thr t = some ⟨c, .giveBack ths :: rest⟩ → ths ≠ []

theorem SoloReached.solo (h : SoloReached s) : Solo s where
  inv := Reached.inv h.reached
  back := Reached.giveBack h.reached
  only := by
    refine h.invariant (J := fun s => ∀ w, w ≠ 0 → s.thr (.work w) = none) ?_ fun _ _ _ hs => hs.2
    intro s ⟨obj, _, hs⟩ w hw
    rw [hs]
    cases w with
    | zero => exact absurd rfl hw
    | succ w => rfl

/-- The main thread executes something other than its wait for work. -/
def State.Busy (s : State) : Prop := ∃ r, s.thr (.work 0) = some r ∧ r.parked = false

/-- The fiber that the main thread is about to resume. -/
def State.next (s : State) : List Fid := s.going (.work 0) ++ (s.stored 0).toList

theorem State.Busy.other (h : s.Busy) (ht : s'.thr (.work 0) = s.thr (.work 0)) : s'.Busy := by
  obtain ⟨r, hr, hp⟩ := h
  exact ⟨r, ht.trans hr, hp⟩

namespace Solo

/-- An idle thread would be the main thread. -/
theorem not_parked (h : Solo s) (hb : s.Busy) {rest : List Frame} :
    s.thr (.work w) ≠ some ⟨.loop w, .loopPark :: rest⟩ := by
  intro ht
  by_cases hw : w = 0
  · obtain ⟨r, hr, hp⟩ := hb
    rw [← hw, ht] at hr
    cases hr
    cases hp
  · rw [h.only w hw] at ht
    cases ht

/-- No call has idle threads in its hands. -/
theorem no_hands (h : Solo s) (hb : s.Busy) (ht : s.thr t = some ⟨c, F⟩) :
    F.flatMap Frame.hands = [] := by
  apply List.eq_nil_iff_forall_not_mem.2
  intro w hw
  obtain ⟨rest, hp⟩ := h.inv.parked_of_hands ht hw
  exact h.not_parked hb hp

theorem no_idle (h : Solo s) (hb : s.Busy) : s.idleThreadList = [] := by
  apply List.eq_nil_iff_forall_not_mem.2
  intro w hw
  obtain ⟨rest, hp⟩ := h.inv.parked_of_post (p := .idle) hw nofun
  exact h.not_parked hb hp

/-- A fiber is stored for the main thread only when its loop is about to switch to it. -/
theorem stored_none (h : Solo s) (hb : s.Busy) {fr : Frame} {rest : List Frame}
    (ht : s.thr (.work 0) = some ⟨c, fr :: rest⟩) (hfr : fr ≠ .loopSwitch) :
    s.stored 0 = none := by
  by_contra hne
  rcases (h.inv.threads.stored 0).1 hne with ⟨t, c', k, rest', ht'⟩ | hs | ⟨t, rest', ht'⟩
  · have hh := h.no_hands hb ht'
    cases hh
  · have hp : 0 ∈ s.post (.signalled 0) := List.mem_replicate.2 ⟨Nat.ne_of_gt hs, rfl⟩
    obtain ⟨rest', hp⟩ := h.inv.parked_of_post hp nofun
    exact h.not_parked hb hp
  · rw [Ctx.On.loop (h.inv.contexts.shape _ _ _ ht').2, ht] at ht'
    cases ht'
    exact hfr rfl

/-- No other thread has a fiber on its way. -/
theorem going_nil (h : Solo s) (hb : s.Busy) (hne : t ≠ .work 0) : s.going t = [] := by
  rcases hr : s.thr t with _ | ⟨c, F⟩
  · simp [State.going, hr]
  · obtain ⟨hshape, hon⟩ := h.inv.contexts.shape _ _ _ hr
    have hh := h.no_hands hb hr
    have htm : t = .timer := by
      cases t with
      | timer => rfl
      | work w =>
        have hw : w ≠ 0 := fun he => hne (by rw [he])
        rw [h.only w hw] at hr
        cases hr
    subst htm
    have hc : c = .timer := by
      cases c with
      | timer => rfl
      | fiber f => obtain ⟨w, hw⟩ := hon; cases hw
      | loop w => cases hon
    subst hc
    rw [going_thr hr]
    cases hshape with
    | outermost => rfl
    | call _ fr hin =>
      rw [hands_call] at hh
      rw [show [fr, base .timer].flatMap Frame.going = fr.going from going_call fr .timer]
      cases fr with
      | store f w k => cases hh
      | copy src d | push d src | switch d src =>
        obtain ⟨f, hf, -⟩ := hin
        cases hf
      | loopCopy g => exact hin.elim
      | _ => rfl

/-- What a work thread executes, the main thread does. -/
theorem main_of_loop (h : Solo s) (ht : s.thr t = some ⟨.loop w, F⟩) : t = .work 0 ∧ w = 0 := by
  obtain rfl := Ctx.On.loop (h.inv.contexts.shape _ _ _ ht).2
  by_cases hw : w = 0
  · exact ⟨by rw [hw], hw⟩
  · rw [h.only w hw] at ht
    cases ht

theorem main_of_fiber (h : Solo s) (ht : s.thr t = some ⟨.fiber f, F⟩) : t = .work 0 := by
  obtain ⟨-, w, rfl⟩ := h.inv.contexts.shape _ _ _ ht
  by_cases hw : w = 0
  · rw [hw]
  · rw [h.only w hw] at ht
    cases ht

theorem onWay_next (h : Solo s) (hb : s.Busy) (hg : s.OnWay g) : g ∈ s.next := by
  rcases hg with ⟨t, hg⟩ | ⟨w, hg⟩
  · by_cases hne : t = .work 0
    · subst hne
      exact List.mem_append_left _ hg
    · rw [h.going_nil hb hne] at hg
      cases hg
  · by_cases hw : w = 0
    · subst hw
      exact List.mem_append_right _ (by simp [hg])
    · rw [h.inv.stored_unstarted (h.only w hw)] at hg
      cases hg

theorem next_not_runs (h : Solo s) (hg : g ∈ s.next) : ¬ s.Runs (.fiber g) := by
  apply h.inv.onWay_not_runs
  rcases List.mem_append.1 hg with hg | hg
  · exact .inl ⟨_, hg⟩
  · exact .inr ⟨0, by simpa using hg⟩

theorem next_not_queued (h : Solo s) (hg : g ∈ s.next) : g ∉ s.fiberList := by
  intro hq
  have hq : g ∈ s.place (.inr .queue) := hq
  rcases List.mem_append.1 hg with hg | hg
  · cases h.inv.fibers.place_unique (h.inv.mem_place_of_going hg) hq
  · have hp : g ∈ s.place (.inr (.assigned 0)) := hg
    cases h.inv.fibers.place_unique hp hq

end Solo

/-- What a step does to the run queue and to the fiber that the main thread is about to resume. -/
inductive Effect (s s' : State) : Prop
  /-- Fibers may be appended. -/
  | calm (hq : s.fiberList <+: s'.fiberList) (hn : s'.next = s.next)
      (hr : ∀ g, ¬ Resumed g s s')
  | pop (g : Fid) (hq : s.fiberList = g :: s'.fiberList) (hn : s.next = []) (hn' : s'.next = [g])
      (hr : ∀ g, ¬ Resumed g s s')
  | transfer (f g : Fid) (hq : s'.fiberList = s.fiberList) (hn : s.next = []) (hn' : s'.next = [g])
      (hr : ∀ g, ¬ Resumed g s s')
      (ht : ∃ o op rest, s.thr (.work 0) = some ⟨.fiber f, .objectOp o op :: rest⟩)
  | resume (g : Fid) (hq : s'.fiberList = s.fiberList) (hn : s.next = [g]) (hn' : s'.next = [])
      (hr : ∀ f, Resumed f s s' ↔ f = g)

/-- **What a step does** while the main thread is busy. -/
theorem Solo.effect (h : Solo s) (h' : Solo s') (hb : s.Busy) (hs : Step s s') : Effect s s' := by
  obtain ⟨t, hother, hf⟩ := hs.flow h.inv
  have hnext : ∀ {g}, Resumed g s s' → g ∈ s.next ∧ g ∉ s'.next := fun hr =>
    ⟨h.onWay_next hb (hr.onWay h.inv hs), fun hg => h'.next_not_runs hg hr.2⟩
  have hcalm : s.fiberList <+: s'.fiberList → s'.next = s.next → Effect s s' := by
    intro hq hn
    refine .calm hq hn ?_
    intro g hr
    have := hnext hr
    rw [hn] at this
    exact this.2 this.1
  have hresume : ∀ g, s'.fiberList = s.fiberList → s.next = [g] → s'.next = [] →
      s'.Runs (.fiber g) → Effect s s' := by
    intro g hq hn hn' hrun
    refine .resume g hq hn hn' ?_
    intro f
    constructor
    · intro hr
      have := (hnext hr).1
      rw [hn] at this
      exact List.mem_singleton.1 this
    · intro hf
      subst hf
      exact ⟨h.next_not_runs (by simp [hn]), hrun⟩
  -- a step that puts a fiber on its way is one of the main thread
  have hmain : s'.going t ≠ [] → t = .work 0 := by
    intro hg
    by_contra hne
    exact hg (h'.going_nil (hb.other (hother _ (Ne.symm hne))) hne)
  cases hf with
  | calm hq hst hb' hg =>
    apply hcalm (hq ▸ List.prefix_rfl)
    unfold State.next
    rw [hst]
    by_cases ht : .work 0 = t
    · rw [ht, hg]
    · rw [going_other (hother _ ht)]
  | append hq hst hb' hg hg' =>
    apply hcalm (by rw [hq]; exact List.prefix_append _ _)
    unfold State.next
    rw [hst]
    by_cases ht : .work 0 = t
    · rw [ht, hg, hg']
    · rw [going_other (hother _ ht)]
  | pop g hq hst hb' hg hg' ht =>
    obtain rfl := hmain (by simp [hg'])
    obtain ⟨c, fr, rest, ht, hw⟩ := ht
    have hnone := h.stored_none hb ht (by rintro rfl; cases hw)
    have hn : s.next = [] := by simp [State.next, hg, hnone]
    refine .pop g hq hn (by simp [State.next, hg', hst, hnone]) ?_
    intro f hr
    have := (hnext hr).1
    rw [hn] at this
    cases this
  | assign g hq hst hb' hg hg' ht =>
    obtain ⟨c, w, k, rest, ht⟩ := ht
    obtain rfl := hmain (by simp [hg'])
    have hh := h'.no_hands ⟨_, ht, rfl⟩ ht
    cases hh
  | takeOver hq hst hb' hb'' hg hg' ht =>
    obtain ⟨c, ths, rest, ht⟩ := ht
    have hh := h.no_hands hb ht
    exact absurd (List.append_eq_nil_iff.1 hh).1 (h.back t c ths rest ht)
  | give g w hq hst hb' hg hg' ht =>
    rcases ht with ⟨c, k, rest, ht⟩ | ht
    · have hh := h.no_hands hb ht
      cases hh
    · obtain ⟨rfl, rfl⟩ := h.main_of_loop ht
      have hnone := h.stored_none hb ht nofun
      apply hcalm (hq ▸ List.prefix_rfl)
      simp [State.next, hg, hg', hst, hnone]
  | transfer f g hq hst hb' hg hg' ht =>
    obtain rfl := hmain (by simp [hg'])
    obtain ⟨o, op, rest, ht, -⟩ := ht
    have hnone := h.stored_none hb ht nofun
    have hn : s.next = [] := by simp [State.next, hg, hnone]
    refine .transfer f g hq hn (by simp [State.next, hg', hst, hnone]) ?_ ⟨o, op, rest, ht⟩
    intro f hr
    have := (hnext hr).1
    rw [hn] at this
    cases this
  | switch f d src hq hst hb' hg' ht ht' =>
    obtain rfl := h.main_of_fiber ht
    have hnone := h.stored_none hb ht nofun
    have hn : s.next = src.toList := by
      simp [State.next, going_thr ht, Frame.going, hnone]
    have hn' : s'.next = [] := by simp [State.next, hg', hst, hnone]
    cases src with
    | none => exact hcalm (hq ▸ List.prefix_rfl) (by rw [hn, hn']; rfl)
    | some g => exact hresume g hq hn hn' ⟨_, _, ht'⟩
  | loopSwitch w g hq hst hb' hg' ht hw ht' =>
    obtain ⟨rfl, rfl⟩ := h.main_of_loop ht
    refine hresume g hq ?_ ?_ ⟨_, _, ht'⟩
    · simp [State.next, going_thr ht, Frame.going, hw]
    · simp [State.next, hg', hst]

/-! ## The call of `fiber_yield` -/

/-- A frame on the way from the call of `A` to the end of its enqueue, with a fiber to switch to. -/
def Frame.yields (A : Fid) : Frame → Prop
  | getAvailable (.enqueue f) | copy (some _) (.enqueue f) | push (.enqueue f) (some _)
  | switch (.enqueue f) (some _) | enqueue f => f = A
  | _ => False

theorem Quiet.not_yields {fr : Frame} {rest : List Frame} (hq : Quiet s c (fr :: rest) F) :
    ¬ fr.yields A := by
  cases hq <;> exact id

/-- **The yielder goes to the end of the queue**: while there is a fiber to switch to and no idle
thread, the main thread stays on the way, or `A` has been appended. -/
theorem Step.yields (hi : Inv s) (hs : Step s s') {fr : Frame} {rest : List Frame}
    (ht : s.thr (.work 0) = some ⟨c, fr :: rest⟩) (hy : fr.yields A)
    (hq : s.fiberList ≠ [] ∨ ∀ d, fr ≠ .getAvailable d) (hidle : s.idleThreadList = []) :
    s'.thr (.work 0) = s.thr (.work 0) ∨
      (∃ c' fr' rest', s'.thr (.work 0) = some ⟨c', fr' :: rest'⟩ ∧ fr'.yields A ∧
        ∀ d, fr' ≠ .getAvailable d) ∨ A ∈ s'.fiberList := by
  -- the thread steps from no other frame
  have hskip : ∀ {t c' fr' rest' r} {s' : State}, s.thr t = some ⟨c', fr' :: rest'⟩ →
      ¬ fr'.yields A → s'.thr = Function.update s.thr t r →
      s'.thr (.work 0) = s.thr (.work 0) := by
    intro t c' fr' rest' r s' ht' hn hthr
    exact thr_other hthr (ne_of_frame ht ht' fun he => hn (he ▸ hy))
  -- it goes on to another frame on the way
  have hgo : ∀ {t c' fr' rest' c₁ fr₁ rest₁} {s' : State}, s.thr t = some ⟨c', fr' :: rest'⟩ →
      s'.thr = Function.update s.thr t (some ⟨c₁, fr₁ :: rest₁⟩) →
      (fr'.yields A → fr₁.yields A) → (∀ d, fr₁ ≠ .getAvailable d) →
      s'.thr (.work 0) = s.thr (.work 0) ∨
        (∃ c' fr' rest', s'.thr (.work 0) = some ⟨c', fr' :: rest'⟩ ∧ fr'.yields A ∧
          ∀ d, fr' ≠ .getAvailable d) ∨ A ∈ s'.fiberList := by
    intro t c' fr' rest' c₁ fr₁ rest₁ s' ht' hthr hy' hd
    by_cases he : .work 0 = t
    · rw [← he, ht] at ht'
      cases ht'
      refine .inr (.inl ⟨c₁, fr₁, rest₁, ?_, hy' hy, hd⟩)
      rw [hthr, he, Function.update_self]
    · exact .inl (by rw [hthr, Function.update_of_ne he])
  cases hs with
  | @quiet t c F F' ht' hq' =>
    rcases F with _ | ⟨fr', rest'⟩
    · cases hq'
    · exact .inl (hskip ht' hq'.not_yields rfl)
  | acquire | timerWait => exact .inl rfl
  | start w ht' =>
    have hne : Thr.work 0 ≠ .work w := by
      intro he
      rw [← he, ht] at ht'
      cases ht'
    exact .inl (Function.update_of_ne hne _ _)
  | @yieldEmpty w f g rest ht' hl hnil | @availEmpty t c' d rest ht' hl hnil =>
    refine .inl (Function.update_of_ne ?_ _ _)
    intro he
    rw [← he, ht] at ht'
    cases ht'
    rcases hq with hq | hq
    · exact hq hnil
    · exact hq _ rfl
  | @availPop t c' d rest g l ht' => exact hgo ht' rfl (by cases d <;> exact id) nofun
  | @copyFiber t f g d rest ht' => exact hgo ht' rfl (by cases d <;> exact id) nofun
  | @push t f d src rest x n ht' =>
    exact hgo ht' rfl (by cases d <;> cases src <;> exact id) nofun
  | @switch t f d src rest x n ht' hd =>
    obtain ⟨rfl, -, -, hcut⟩ := hi.switch_target ht' hd
    rw [hcut]
    refine hgo ht' rfl ?_ ?_
    · cases d <;> cases src <;> first | exact id | exact False.elim
    · cases d <;> nofun
  | @enqueueIdle t c' g w ws rest ht' hl hi' =>
    rw [hidle] at hi'
    cases hi'
  | @enqueueTail t c' g rest ht' hl =>
    by_cases he : .work 0 = t
    · rw [← he, ht] at ht'
      cases ht'
      have hg : g = A := hy
      subst hg
      exact .inr (.inr (List.mem_append_right _ (List.mem_singleton_self g)))
    · exact .inl (Function.update_of_ne he _ _)
  | copyThread ht' => exact .inl (hskip ht' (fun h => by simp [Frame.yields] at h) rfl)
  | store ht' | signal ht' | signalNext ht' | listTail ht' | listTake ht' | backIdle ht'
  | backSteal ht' | loopIdle ht' | loopPop ht' | loopWake ht' | loopCopy ht' | loopSwitch ht'
  | unlock ht' | recycle ht' | timerAdd ht' | expire _ ht' | object ht' | spawnPop ht'
  | spawnEmpty ht' | queryMemory ht' | spawnNew _ ht' => exact .inl (hskip ht' id rfl)

theorem Step.alive (hs : Step s s') (ht : s.thr t ≠ none) : s'.thr t ≠ none := by
  cases hs with
  | acquire | timerWait => exact ht
  | _ => exact fun hn => ht (thr_update_none rfl hn).2

/-- `A` is on the way to the run queue, in it, or the next to be resumed. -/
def State.Awaits (s : State) (A : Fid) : Prop :=
  A ∈ s.fiberList ∨ A ∈ s.next ∨ ∃ c fr rest, s.thr (.work 0) = some ⟨c, fr :: rest⟩ ∧
    fr.yields A ∧ (s.fiberList ≠ [] ∨ ∀ d, fr ≠ .getAvailable d)

namespace Solo

theorem next_eq (h : Solo s) (hb : s.Busy) {fr : Frame} {rest : List Frame}
    (ht : s.thr (.work 0) = some ⟨c, fr :: rest⟩) (hfr : fr ≠ .loopSwitch) :
    s.next = s.going (.work 0) := by
  unfold State.next
  rw [h.stored_none hb ht hfr]
  exact List.append_nil _

/-- In a call that has nothing in hand, no fiber is the next one. -/
theorem next_nil (h : Solo s) (hb : s.Busy) {fr : Frame} {rest : List Frame}
    (ht : s.thr (.work 0) = some ⟨c, fr :: rest⟩) (hfr : fr ≠ .loopSwitch) (hheld : fr.held = []) :
    s.next = [] := by
  rw [h.next_eq hb ht hfr, going_thr ht]
  have hsub := fr.way_sublist
  rw [hheld, List.sublist_nil, List.append_eq_nil_iff] at hsub
  cases (h.inv.contexts.shape_of ht) with
  | outermost c => simp
  | park w | copy w g => simp [hsub.1]
  | switch w => exact absurd rfl hfr
  | call c fr hin => simp [hsub.1]

/-- While a fiber awaits its turn, the main thread does not go idle. -/
theorem stays_busy (h : Solo s) (hb : s.Busy) (ha : s.Awaits A) (hs : Step s s') : s'.Busy := by
  obtain ⟨r, hr, hp⟩ := hb
  obtain ⟨⟨c', F'⟩, hr'⟩ := Option.ne_none_iff_exists'.1 (hs.alive (t := .work 0) (by simp [hr]))
  refine ⟨_, hr', ?_⟩
  rcases F' with _ | ⟨fr, rest⟩
  · rfl
  rcases hs.settled h.inv hr' with hsame | hset | ⟨-, hq, w, ht⟩
  · rw [hr] at hsame
    cases hsame
    exact hp
  · cases fr <;> first | rfl | cases hset
  · exfalso
    rcases ha with hm | hm | ⟨c, fr, rest, ht', hy, -⟩
    · rw [hq] at hm
      cases hm
    · rw [h.next_nil ⟨r, hr, hp⟩ ht nofun rfl] at hm
      cases hm
    · rw [ht] at ht'
      cases ht'
      exact hy

/-- **A fiber that awaits its turn** goes on doing so until it is resumed. -/
theorem awaits (h : Solo s) (h' : Solo s') (hb : s.Busy) (ha : s.Awaits A) (hs : Step s s') :
    s'.Awaits A ∨ Resumed A s s' := by
  have hb' := h.stays_busy hb ha hs
  have he := h.effect h' hb hs
  rcases ha with hm | hm | ⟨c, fr, rest, ht, hy, hq⟩
  · refine .inl ?_
    cases he with
    | calm hq hn hr => exact .inl (hq.subset hm)
    | pop g hq hn hn' hr =>
      rw [hq] at hm
      rcases List.mem_cons.1 hm with rfl | hm
      · exact .inr (.inl (by simp [hn']))
      · exact .inl hm
    | transfer f g hq hn hn' hr ht => exact .inl (hq ▸ hm)
    | resume g hq hn hn' hr => exact .inl (hq ▸ hm)
  · cases he with
    | calm hq hn hr => exact .inl (.inr (.inl (hn ▸ hm)))
    | pop g hq hn | transfer f g hq hn =>
      rw [hn] at hm
      cases hm
    | resume g hq hn hn' hr =>
      rw [hn, List.mem_singleton] at hm
      exact .inr ((hr A).2 hm)
  · refine .inl ?_
    rcases hs.yields h.inv ht hy hq (h.no_idle hb) with hsame | ⟨c', fr', rest', ht', hy', hd⟩ | hm
    · rw [ht] at hsame
      refine .inr (.inr ⟨c, fr, rest, hsame, hy, ?_⟩)
      by_cases hd : ∀ d, fr ≠ .getAvailable d
      · exact .inr hd
      · -- the call waits for the lock: only others may append
        obtain ⟨d, hd⟩ := not_forall_not.1 hd
        subst hd
        have hnil := h'.next_nil hb' hsame nofun rfl
        have hnil₀ := h.next_nil hb ht nofun rfl
        cases he with
        | calm hpre hn hr =>
          refine .inl ?_
          intro hq'
          rw [hq', List.prefix_nil] at hpre
          exact hq.elim (fun hq => hq hpre) fun hq => hq d rfl
        | pop g hq hn hn' | transfer f g hq hn hn' =>
          rw [hnil] at hn'
          cases hn'
        | resume g hq hn hn' =>
          rw [hnil₀] at hn
          cases hn
    · exact .inr (.inr ⟨c', fr', rest', ht', hy', .inr hd⟩)
    · exact .inl hm

end Solo

/-! ## The order of the resumptions -/

/-- In a run from `s` to the state given, the fibers of `l` were resumed, in the order of their
first resumptions. -/
inductive FirstResumed (s : State) : List Fid → State → Prop
  | refl : FirstResumed s [] s
  | calm {l u u'} (h : FirstResumed s l u) (hs : SoloStep u u') (hr : ∀ g, ¬ Resumed g u u') :
      FirstResumed s l u'
  | again {l u u' g} (h : FirstResumed s l u) (hs : SoloStep u u') (hr : Resumed g u u')
      (hg : g ∈ l) : FirstResumed s l u'
  | first {l u u' g} (h : FirstResumed s l u) (hs : SoloStep u u') (hr : Resumed g u u')
      (hg : g ∉ l) : FirstResumed s (l ++ [g]) u'

/-- Every run has such a list. -/
theorem FirstResumed.of_run (hr : Relation.ReflTransGen SoloStep s s') :
    ∃ l, FirstResumed s l s' := by
  induction hr with
  | refl => exact ⟨[], .refl⟩
  | @tail u u' _ hs ih =>
    obtain ⟨l, hl⟩ := ih
    by_cases hr : ∃ g, Resumed g u u'
    · obtain ⟨g, hg⟩ := hr
      by_cases hm : g ∈ l
      · exact ⟨l, .again hl hs hg hm⟩
      · exact ⟨l ++ [g], .first hl hs hg hm⟩
    · exact ⟨l, .calm hl hs (not_exists.1 hr)⟩

theorem FirstResumed.run {l : List Fid} (h : FirstResumed s l s') :
    Relation.ReflTransGen SoloStep s s' := by
  induction h with
  | refl => exact .refl
  | calm _ hs _ ih | again _ hs _ _ ih | first _ hs _ _ ih => exact ih.tail hs

/-- `Q` is split into the fibers `D` that have been popped, and `R`, which are still at the head of
the run queue; the last of `D` may be on its way. -/
structure Split (Q l : List Fid) (A : Fid) (u : State) (D R : List Fid) : Prop where
  all : Q = D ++ R
  head : R <+: u.fiberList
  fresh : ∀ g ∈ R, g ∉ l
  last : A ∈ u.next → R = []
  order : D.Sublist l ∨ ∃ D' g, D = D' ++ [g] ∧ u.next = [g] ∧ D'.Sublist l ∧ g ∉ l

/-- **The invariant** of the run from the call on, until `A` is resumed. -/
structure Behind (Q l : List Fid) (A : Fid) (u : State) : Prop where
  solo : Solo u
  busy : u.Busy
  awaits : u.Awaits A
  apart : A ∉ Q
  notYet : A ∉ l
  split : ∃ D R, Split Q l A u D R

namespace Behind

variable {Q l : List Fid} {u u' : State}

/-- A step that resumes no fiber. -/
theorem calm (h : Behind Q l A u) (hs : Step u u') (h' : Solo u')
    (hr : ∀ g, ¬ Resumed g u u') : Behind Q l A u' := by
  have ha : u'.Awaits A := (h.solo.awaits h' h.busy h.awaits hs).resolve_right (hr A)
  refine ⟨h', h.solo.stays_busy h.busy h.awaits hs, ha, h.apart, h.notYet, ?_⟩
  obtain ⟨D, R, hall, hhead, hfresh, hlast, horder⟩ := h.split
  -- the fiber popped before has been resumed, if none is on its way
  have hdone : u.next = [] → D.Sublist l := by
    intro hn
    rcases horder with hD | ⟨D', g, -, hg, -⟩
    · exact hD
    · rw [hn] at hg
      cases hg
  cases h.solo.effect h' h.busy hs with
  | calm hq hn hr' =>
    refine ⟨D, R, hall, hhead.trans hq, hfresh, ?_, ?_⟩
    · rwa [hn]
    · rwa [hn]
  | pop g hq hn hn' hr' =>
    rcases R with _ | ⟨g', R⟩
    · exact ⟨D, [], hall, List.nil_prefix, hfresh, fun _ => rfl, .inl (hdone hn)⟩
    · rw [hq, List.cons_prefix_cons] at hhead
      obtain ⟨rfl, hhead⟩ := hhead
      refine ⟨D ++ [g'], R, by simp [hall], hhead, fun x hx => hfresh x (.tail _ hx), ?_,
        .inr ⟨D, g', rfl, hn', hdone hn, hfresh g' List.mem_cons_self⟩⟩
      intro hA
      rw [hn', List.mem_singleton] at hA
      exact absurd (by simp [hall, hA]) h.apart
  | transfer f g hq hn hn' hr' ht =>
    refine ⟨D, R, hall, hq ▸ hhead, hfresh, ?_, .inl (hdone hn)⟩
    -- the fiber popped from the channel is not `A`
    intro hA
    exfalso
    obtain ⟨o, op, rest, ht⟩ := ht
    rcases h.awaits with hm | hm | ⟨c, fr, rest', ht', hy, -⟩
    · exact h'.next_not_queued hA (hq ▸ hm)
    · rw [hn] at hm
      cases hm
    · rw [ht] at ht'
      cases ht'
      exact hy
  | resume g hq hn hn' hr' => exact absurd ((hr' g).2 rfl) (hr g)

/-- A step that resumes the fiber `g`. -/
theorem resume (h : Behind Q l A u) (hs : Step u u') (h' : Solo u') {g : Fid}
    (hr : Resumed g u u') : u.next = [g] ∧ (g = A → Q.Sublist l) ∧
      ∀ l', l.Sublist l' → (∀ x, x ∈ l' ↔ x ∈ l ∨ x = g) → (g ∉ l → l' = l ++ [g]) → g ≠ A →
        Behind Q l' A u' := by
  obtain ⟨D, R, hall, hhead, hfresh, hlast, horder⟩ := h.split
  have hnext : u.next = [g] ∧ u'.next = [] ∧ u'.fiberList = u.fiberList := by
    cases h.solo.effect h' h.busy hs with
    | calm hq hn hr' | pop _ hq hn hn' hr' | transfer _ _ hq hn hn' hr' => exact absurd hr (hr' g)
    | resume f hq hn hn' hr' =>
      obtain rfl := (hr' g).1 hr
      exact ⟨hn, hn', hq⟩
  obtain ⟨hn, hn', hq⟩ := hnext
  refine ⟨hn, ?_, ?_⟩
  · rintro rfl
    have hR := hlast (by simp [hn])
    subst hR
    rw [List.append_nil] at hall
    subst hall
    rcases horder with hD | ⟨D', g', rfl, hg, -⟩
    · exact hD
    · rw [hn] at hg
      cases hg
      exact absurd (by simp) h.apart
  · intro l' hsub hmem hnew hne
    have ha : u'.Awaits A := by
      refine (h.solo.awaits h' h.busy h.awaits hs).resolve_right ?_
      intro hA
      have hg := h.solo.onWay_next h.busy (hA.onWay h.solo.inv hs)
      rw [hn, List.mem_singleton] at hg
      exact hne hg.symm
    refine ⟨h', h.solo.stays_busy h.busy h.awaits hs, ha, h.apart, ?_, D, R, hall, hq ▸ hhead, ?_,
      fun hA => by simp [hn'] at hA, .inl ?_⟩
    · intro hA
      rcases (hmem A).1 hA with hA | hA
      · exact h.notYet hA
      · exact hne hA.symm
    · intro x hx hxl
      rcases (hmem x).1 hxl with hxl | rfl
      · exact hfresh x hx hxl
      · exact h.solo.next_not_queued (by simp [hn]) (hhead.subset hx)
    · rcases horder with hD | ⟨D', g', rfl, hg, hD, hfr⟩
      · exact hD.trans hsub
      · rw [hn] at hg
        cases hg
        rw [hnew hfr]
        exact hD.append (.refl _)

end Behind

/-- **The run** from the call on. -/
theorem Behind.run {Q l : List Fid} (h : Behind Q [] A s) (hs : SoloReached s)
    (hrun : FirstResumed s l s') :
    Behind Q l A s' ∨ ∃ l₁ l₂, l = l₁ ++ A :: l₂ ∧ Q.Sublist l₁ := by
  induction hrun with
  | refl => exact .inl h
  | @calm l u u' hrun hstep hr ih =>
    rcases ih with ih | ih
    · have hu' : SoloReached u' := Reachable.next (hs.run hrun.run) hstep
      exact .inl (ih.calm hstep.1 hu'.solo hr)
    · exact .inr ih
  | @again l u u' g hrun hstep hr hg ih =>
    rcases ih with ih | ih
    · have hu' : SoloReached u' := Reachable.next (hs.run hrun.run) hstep
      obtain ⟨-, -, hgo⟩ := ih.resume hstep.1 hu'.solo hr
      refine .inl (hgo l (.refl l) ?_ (absurd hg) ?_)
      · intro x
        exact ⟨.inl, fun hx => hx.elim id fun he => he ▸ hg⟩
      · rintro rfl
        exact ih.notYet hg
    · exact .inr ih
  | @first l u u' g hrun hstep hr hg ih =>
    rcases ih with ih | ⟨l₁, l₂, rfl, hQ⟩
    · have hu' : SoloReached u' := Reachable.next (hs.run hrun.run) hstep
      obtain ⟨-, hA, hgo⟩ := ih.resume hstep.1 hu'.solo hr
      by_cases hne : g = A
      · subst hne
        exact .inr ⟨l, [], rfl, hA rfl⟩
      · exact .inl (hgo _ (List.sublist_append_left l [g]) (fun x => by simp) (fun _ => rfl) hne)
    · exact .inr ⟨l₁, l₂ ++ [g], by simp, hQ⟩

/-! ## One resumption for each enqueue -/

/-- A call of `enqueue_fiber` or `enqueue_fiber_list` passes `g` on, to the run queue or to an idle
thread. -/
def Enqueued (g : Fid) (s s' : State) : Prop := (∃ t, g ∈ s.batch t) ∧ ∀ t, g ∉ s'.batch t

/-- A channel operation pops `g` from the channel, and is to switch to it. -/
def HandedOver (g : Fid) (s s' : State) : Prop :=
  ∃ t f o op rest, s.thr t = some ⟨.fiber f, .objectOp o op :: rest⟩ ∧
    s'.thr t = some ⟨.fiber f, .copy (some g) (.enqueue f) :: rest⟩

/-- `g` is to be resumed: it is in the run queue or on its way. -/
def State.Due (s : State) (g : Fid) : Prop := g ∈ s.fiberList ∨ s.OnWay g

theorem Inv.due_not_runs (h : Inv s) (hg : s.Due g) : ¬ s.Runs (.fiber g) := by
  rcases hg with hg | hg
  · exact h.linked_not_runs (p := .queue) hg nofun
  · exact h.onWay_not_runs hg

/-- What waits to be dispatched or is on its way, no call is enqueueing. -/
theorem Inv.due_not_batch (h : Inv s) (hg : s.Due g) : g ∉ s.batch t := by
  intro hb
  have hb' := h.mem_place_of_batch hb
  rcases hg with hg | ⟨t', hg⟩ | ⟨w, hg⟩
  · have hp : g ∈ s.place (.inr .queue) := hg
    cases h.fibers.place_unique hb' hp
  · exact h.going_not_batch hg hb
  · have hp : g ∈ s.place (.inr (.assigned w)) := by simp [State.place, State.linked, hg]
    cases h.fibers.place_unique hb' hp

/-- **A fiber becomes due** when it is enqueued, or handed over by a channel operation. -/
theorem Step.due (hi : Inv s) (hi' : Inv s') (hs : Step s s') (hg : s'.Due g) :
    s.Due g ∨ Enqueued g s s' ∨ HandedOver g s s' := by
  obtain ⟨t, hother, hf⟩ := hs.flow hi
  have hbatch : g ∈ s.batch t → s.Due g ∨ Enqueued g s s' ∨ HandedOver g s s' :=
    fun hb => .inr (.inl ⟨⟨t, hb⟩, fun _ => hi'.due_not_batch hg⟩)
  -- the list it is in, or what it is on its way to, may be new
  have hcases : (g ∈ s'.fiberList → s.Due g ∨ g ∈ s.batch t) →
      (g ∈ s'.going t → s.Due g ∨ g ∈ s.batch t ∨ HandedOver g s s') →
      (∀ w, s'.stored w = some g → s.Due g) →
      s.Due g ∨ Enqueued g s s' ∨ HandedOver g s s' := by
    intro hq hgo hst
    rcases hg with hm | ⟨t', hm⟩ | ⟨w, hw⟩
    · exact (hq hm).elim .inl hbatch
    · by_cases hne : t' = t
      · subst hne
        rcases hgo hm with hd | hb | hh
        · exact .inl hd
        · exact hbatch hb
        · exact .inr (.inr hh)
      · rw [going_other (hother t' hne)] at hm
        exact .inl (.inr (.inl ⟨t', hm⟩))
    · exact .inl (hst w hw)
  have hstored : s'.stored = s.stored → ∀ w, s'.stored w = some g → s.Due g := by
    intro hst w hw
    exact .inr (.inr ⟨w, hst ▸ hw⟩)
  have hlist : s'.fiberList = s.fiberList → g ∈ s'.fiberList → s.Due g ∨ g ∈ s.batch t :=
    fun hq hm => .inl (.inl (hq ▸ hm))
  have hnone : s'.going t = [] → g ∈ s'.going t →
      s.Due g ∨ g ∈ s.batch t ∨ HandedOver g s s' := by
    intro hg' hm
    rw [hg'] at hm
    cases hm
  cases hf with
  | calm hq hst hb hgo =>
    refine hcases (hlist hq) ?_ (hstored hst)
    intro hm
    exact .inl (.inr (.inl ⟨t, hgo ▸ hm⟩))
  | append hq hst hb hgo hgo' =>
    refine hcases ?_ (hnone hgo') (hstored hst)
    intro hm
    rw [hq] at hm
    rcases List.mem_append.1 hm with hm | hm
    · exact .inl (.inl hm)
    · exact .inr hm
  | pop f hq hst hb hgo hgo' ht =>
    refine hcases ?_ ?_ (hstored hst)
    · intro hm
      exact .inl (.inl (hq ▸ List.mem_cons_of_mem f hm))
    · intro hm
      rw [hgo', List.mem_singleton] at hm
      subst hm
      exact .inl (.inl (hq ▸ List.mem_cons_self))
  | assign f hq hst hb hgo hgo' ht =>
    refine hcases (hlist hq) ?_ (hstored hst)
    intro hm
    rw [hgo', List.mem_singleton] at hm
    subst hm
    exact .inr (.inl (hb ▸ List.mem_cons_self))
  | takeOver hq hst hb hb' hgo hgo' ht =>
    refine hcases ?_ (hnone hgo') (hstored hst)
    intro hm
    rw [hq] at hm
    cases hm
  | give f w hq hst hb hgo hgo' ht =>
    apply hcases (hlist hq) (hnone hgo')
    intro w' hw
    rw [hst] at hw
    by_cases he : w' = w
    · subst he
      rw [Function.update_self] at hw
      cases hw
      exact .inr (.inl ⟨t, hgo ▸ List.mem_singleton_self g⟩)
    · rw [Function.update_of_ne he] at hw
      exact .inr (.inr ⟨w', hw⟩)
  | transfer f x hq hst hb hgo hgo' ht =>
    refine hcases (hlist hq) ?_ (hstored hst)
    intro hm
    rw [hgo', List.mem_singleton] at hm
    subst hm
    obtain ⟨o, op, rest, ht, ht'⟩ := ht
    exact .inr (.inr ⟨t, f, o, op, rest, ht, ht'⟩)
  | switch f d src hq hst hb hgo' ht ht' => exact hcases (hlist hq) (hnone hgo') (hstored hst)
  | loopSwitch w f hq hst hb hgo' ht hw ht' =>
    apply hcases (hlist hq) (hnone hgo')
    intro w' hw'
    rw [hst] at hw'
    by_cases he : w' = w
    · simp [he] at hw'
    · rw [Function.update_of_ne he] at hw'
      exact .inr (.inr ⟨w', hw'⟩)

/-- A step in which `A` is neither enqueued nor handed over. -/
def Skips (A : Fid) (s s' : State) : Prop :=
  SoloStep s s' ∧ ¬ Enqueued A s s' ∧ ¬ HandedOver A s s'

/-- A fiber that is not due does not become due without being enqueued or handed over. -/
theorem Skips.not_due (h : SoloReached s) (hd : ¬ s.Due A)
    (hrun : Relation.ReflTransGen (Skips A) s s') : SoloReached s' ∧ ¬ s'.Due A := by
  induction hrun with
  | refl => exact ⟨h, hd⟩
  | @tail u u' _ hs ih =>
    obtain ⟨hu, hd⟩ := ih
    have hu' : SoloReached u' := hu.next hs.1
    refine ⟨hu', ?_⟩
    intro hA
    rcases hs.1.1.due hu.solo.inv hu'.solo.inv hA with hA | hA | hA
    · exact hd hA
    · exact hs.2.1 hA
    · exact hs.2.2 hA

/-! ## Runs of the main thread -/

/-- `fiber_yield`, with the fiber `g` at the head of the run queue and no idle thread: `g` goes on,
and enqueues the yielder. -/
theorem yield_run {l : List Fid}
    (ht : s.thr t = some ⟨.fiber f, [.getAvailable (.enqueue f), .user]⟩)
    (hq : s.fiberList = g :: l) (hl : s.lock .queue = none) (hidle : s.idleThreadList = [])
    (hdesc : s.desc g = some ⟨.fiber g, 1⟩) (hsusp : s.susp (.fiber g) = [.user]) :
    ∃ s', Relation.ReflTransGen (StepOf t) s s' ∧ s'.thr t = some ⟨.fiber g, [.user]⟩ ∧
      s'.fiberList = l ++ [f] ∧ s'.lock = s.lock ∧ s'.idleThreadList = [] ∧ s'.obj = s.obj ∧
      s'.destroyed = s.destroyed ∧ s'.threadFiber = s.threadFiber ∧
      s'.desc f = some ⟨.fiber f, 1⟩ ∧ s'.susp (.fiber f) = [.user] ∧
      ∀ w, s'.susp (.loop w) = s.susp (.loop w) := by
  have hself : ∀ {h : Thr → Option Running} {r}, Function.update h t r t = r :=
    Function.update_self _ _ _
  have h1 : Relation.ReflTransGen (StepOf t) s _ :=
    .single ⟨.acquire .queue ht rfl hl, fun _ _ => rfl⟩
  have h2 := h1.tail (.of (.availPop ht (by simp) hq) rfl)
  have h3 := h2.tail (.of (.copyFiber hself) rfl)
  have h4 := h3.tail (.of (.push (x := .fiber g) (n := 1) hself
    (by simp [State.setDesc, State.run, State.release, hdesc])) rfl)
  have hcut : cut 1 (s.susp (.fiber g)) = [.user] := by rw [hsusp]; rfl
  obtain ⟨k, hk, hkt, hkq, hkl, hki, hko, hkd, hkf, hkdesc, hksusp, hkloop⟩ : ∃ k,
      Relation.ReflTransGen (StepOf t) s k ∧
      k.thr t = some ⟨.fiber f, [.switch (.enqueue f) (some g), .user]⟩ ∧ k.fiberList = l ∧
      k.lock = s.lock ∧ k.idleThreadList = [] ∧ k.obj = s.obj ∧ k.destroyed = s.destroyed ∧
      k.threadFiber = s.threadFiber ∧ k.desc f = some ⟨.fiber g, 2⟩ ∧
      k.susp (.fiber g) = [.enqueue f, .user] ∧ ∀ w, k.susp (.loop w) = s.susp (.loop w) := by
    refine ⟨_, h4, hself, rfl, ?_, hidle, rfl, rfl, rfl, Function.update_self _ _ _, ?_, ?_⟩
    · show Function.update (Function.update s.lock .queue (some t)) .queue none = s.lock
      rw [Function.update_idem, ← hl, Function.update_eq_self]
    · show Function.update s.susp (.fiber g) (.enqueue f :: cut 1 (s.susp (.fiber g))) _ = _
      rw [Function.update_self, hcut]
    · intro w
      have hw : Ctx.loop w ≠ .fiber g := by simp
      show Function.update s.susp (.fiber g) (.enqueue f :: cut 1 (s.susp (.fiber g))) (.loop w) =
        s.susp (.loop w)
      rw [Function.update_of_ne hw]
  have h5 := hk.tail (.of (.switch hkt hkdesc) rfl)
  rw [hksusp] at h5
  have h6 := h5.tail ⟨.acquire .queue hself rfl (hkl ▸ hl), fun _ _ => rfl⟩
  have h7 := h6.tail (.of (.enqueueTail hself (by simp) hki) rfl)
  refine ⟨_, h7, hself, ?_, ?_, hki, hko, hkd, hkf, ?_, ?_, ?_⟩
  · show k.fiberList ++ [f] = l ++ [f]
    rw [hkq]
  · show Function.update (Function.update k.lock .queue (some t)) .queue none = s.lock
    rw [Function.update_idem, hkl, ← hl, Function.update_eq_self]
  · exact Function.update_self _ _ _
  · exact Function.update_self _ _ _
  · intro w
    have hw : Ctx.loop w ≠ .fiber f := by simp
    show Function.update k.susp (.fiber f) [.user] (.loop w) = s.susp (.loop w)
    rw [Function.update_of_ne hw, hkloop]

theorem StepOf.others (hrun : Relation.ReflTransGen (StepOf t) s s') (hne : t' ≠ t) :
    s'.thr t' = s.thr t' := by
  induction hrun with
  | refl => rfl
  | tail _ hs ih => exact (hs.2 t' hne).trans ih

/-- The steps of the main thread, while no other work thread has been started. -/
theorem StepOf.solo (h : ∀ w, w ≠ 0 → s.thr (.work w) = none)
    (hrun : Relation.ReflTransGen (StepOf (.work 0)) s s') :
    Relation.ReflTransGen SoloStep s s' := by
  induction hrun with
  | refl => exact .refl
  | @tail u u' hu hs ih =>
    refine ih.tail ⟨hs.1, ?_⟩
    intro w hw
    have hne : Thr.work w ≠ .work 0 := fun he => hw (Thr.work.inj he)
    exact (StepOf.others (hu.tail hs) hne).trans (h w hw)

/-- The main fiber spawns the fiber 1 and calls `fiber_yield`. -/
theorem spawn_yield (obj : Oid → Object) (ho : ∀ o, (obj o).Fresh) : ∃ s, SoloReached s ∧
    s.thr (.work 0) = some ⟨.fiber 0, [.getAvailable (.enqueue 0), .user]⟩ ∧ s.fiberList = [1] ∧
    s.lock = (fun _ => none) ∧ s.idleThreadList = [] ∧ s.obj = obj ∧
    s.destroyed = (fun _ => false) ∧ s.threadFiber 0 = some ⟨.loop 0, 1⟩ ∧
    s.susp (.loop 0) = [.loopTop] ∧ s.desc 1 = some ⟨.fiber 1, 1⟩ ∧ s.susp (.fiber 1) = [.user] ∧
    s.thr .timer = some ⟨.timer, [.timerTop]⟩ := by
  have h0 : SoloReached (.start obj) := .start ⟨obj, ho, rfl⟩
  obtain ⟨u, hu, -, hlast⟩ := spawn_run (s := .start obj) (t := .work 0) (g := 1)
    rfl rfl rfl rfl rfl rfl
  have hrun := (hu.tail hlast).tail (.of (.quiet (t := .work 0) rfl .yield) rfl)
  have h1 : SoloReached _ := h0.run (StepOf.solo h0.solo.only hrun)
  exact ⟨_, h1, rfl, rfl, rfl, rfl, rfl, rfl, rfl, rfl, rfl, rfl, rfl⟩

/-- A step of the main thread, whose calls are enqueueing nothing. -/
def Bare (s s' : State) : Prop := StepOf (.work 0) s s' ∧ s.batch (.work 0) = []

theorem Bare.not_enqueued (h : ∀ w, w ≠ 0 → s.thr (.work w) = none)
    (htm : s.thr .timer = some ⟨.timer, [.timerTop]⟩)
    (hrun : Relation.ReflTransGen Bare s s') :
    Relation.ReflTransGen (fun a b => SoloStep a b ∧ ¬ Enqueued A a b) s s' ∧
      (∀ w, w ≠ 0 → s'.thr (.work w) = none) ∧ s'.thr .timer = some ⟨.timer, [.timerTop]⟩ := by
  induction hrun with
  | refl => exact ⟨.refl, h, htm⟩
  | @tail u u' _ hs ih =>
    obtain ⟨hrun, hu, htm⟩ := ih
    obtain ⟨hs, hb⟩ := hs
    have hu' : ∀ w, w ≠ 0 → u'.thr (.work w) = none := by
      intro w hw
      rw [hs.2 _ (fun he => hw (Thr.work.inj he))]
      exact hu w hw
    refine ⟨hrun.tail ⟨⟨hs.1, hu'⟩, ?_⟩, hu', (hs.2 .timer nofun).trans htm⟩
    intro ⟨⟨t, hA⟩, _⟩
    cases t with
    | timer =>
      rw [batch_thr htm] at hA
      cases hA
    | work w =>
      by_cases hw : w = 0
      · rw [hw, hb] at hA
        cases hA
      · simp [State.batch, hu w hw] at hA

/-- The main fiber receives on an empty channel: it is about to switch to the loop, suspended. -/
theorem receive_run (ht : s.thr (.work 0) = some ⟨.fiber 0, [.user]⟩)
    (hl : ∀ L, s.lock L = none) (hobj : s.obj 0 = .channel (.create 0))
    (hd : s.destroyed 0 = false) (htf : s.threadFiber 0 = some ⟨.loop 0, 1⟩)
    (hloop : s.susp (.loop 0) = [.loopTop]) :
    ∃ s', Relation.ReflTransGen Bare s s' ∧
      s'.thr (.work 0) = some ⟨.fiber 0, [.switch (.unlock 0) none, .user]⟩ ∧
      s'.lock .queue = none ∧ s'.fiberList = s.fiberList ∧
      s'.obj 0 = .channel ((Channel.FiberChannel.create 0).receiveImpl 0).1 ∧
      s'.destroyed 0 = false ∧ s'.desc 0 = some ⟨.loop 0, 2⟩ ∧ s'.desc 1 = s.desc 1 ∧
      s'.susp (.loop 0) = [.unlock 0, .loopTop] ∧ s'.susp (.fiber 1) = s.susp (.fiber 1) := by
  have h1 : Relation.ReflTransGen Bare s _ :=
    .single ⟨.of (.quiet ht (.object 0 .receive hd)) rfl, batch_thr ht⟩
  have h2 := h1.tail
    ⟨⟨.acquire (t := .work 0) (.object 0) rfl rfl (hl _), fun _ _ => rfl⟩, rfl⟩
  have h3 := h2.tail ⟨.of (.object (t := .work 0) rfl rfl) rfl, rfl⟩
  obtain ⟨k, hk, hkt, hkl, hkq, hko, hkd, hkf, hkdesc, hkloop, hksusp⟩ : ∃ k,
      Relation.ReflTransGen Bare s k ∧
      k.thr (.work 0) = some ⟨.fiber 0, [.copy none (.unlock 0), .user]⟩ ∧
      k.lock .queue = none ∧ k.fiberList = s.fiberList ∧
      k.obj 0 = .channel ((Channel.FiberChannel.create 0).receiveImpl 0).1 ∧
      k.destroyed 0 = false ∧ k.threadFiber 0 = some ⟨.loop 0, 1⟩ ∧ k.desc 1 = s.desc 1 ∧
      k.susp (.loop 0) = [.loopTop] ∧ k.susp (.fiber 1) = s.susp (.fiber 1) := by
    refine ⟨_, h3, ?_, ?_, rfl, ?_, hd, htf, rfl, hloop, rfl⟩
    · show some (Running.mk _ (((s.obj 0).critical .receive 0).2.next 0 0 [.user])) = _
      rw [hobj]
      rfl
    · dsimp only
      split <;> exact hl .queue
    · show ((s.obj 0).critical .receive 0).1 = _
      rw [hobj]
      rfl
  have h4 := hk.tail ⟨.of (.copyThread (w := 0) hkt) rfl, batch_thr hkt⟩
  have h5 := h4.tail
    ⟨.of (.push (t := .work 0) (f := 0) (x := .loop 0) (n := 1) rfl hkf) rfl, rfl⟩
  refine ⟨_, h5, rfl, hkl, hkq, hko, hkd, rfl, hkdesc, ?_, hksusp⟩
  show Frame.unlock 0 :: cut 1 (k.susp (.loop 0)) = _
  rw [hkloop]
  rfl

/-- The loop of the main thread unlocks the channel, and pops the fiber 1. -/
theorem loop_run (ht : s.thr (.work 0) = some ⟨.fiber 0, [.switch (.unlock 0) none, .user]⟩)
    (hl : s.lock .queue = none) (hq : s.fiberList = [1]) (hdesc : s.desc 0 = some ⟨.loop 0, 2⟩)
    (hdesc₁ : s.desc 1 = some ⟨.fiber 1, 1⟩) (hloop : s.susp (.loop 0) = [.unlock 0, .loopTop])
    (hsusp : s.susp (.fiber 1) = [.user]) :
    ∃ s', Relation.ReflTransGen Bare s s' ∧ s'.thr (.work 0) = some ⟨.fiber 1, [.user]⟩ ∧
      s'.lock (.object 0) = none ∧ s'.obj 0 = s.obj 0 ∧ s'.destroyed 0 = s.destroyed 0 ∧
      s'.desc 0 = some ⟨.fiber 0, 1⟩ ∧ s'.susp (.fiber 0) = [.user] := by
  have h1 : Relation.ReflTransGen Bare s _ := .single ⟨.of (.switch ht hdesc) rfl, batch_thr ht⟩
  rw [hloop] at h1
  have h2 := h1.tail ⟨.of (.unlock (t := .work 0) rfl) rfl, rfl⟩
  have h3 := h2.tail ⟨⟨.acquire (t := .work 0) .queue rfl rfl hl, fun _ _ => rfl⟩, rfl⟩
  have h4 := h3.tail ⟨.of (.loopPop (t := .work 0) rfl rfl hq) rfl, rfl⟩
  have h5 := h4.tail ⟨.of (.loopCopy (t := .work 0) rfl) rfl, rfl⟩
  have h6 := h5.tail
    ⟨.of (.loopSwitch (t := .work 0) (x := .fiber 1) (n := 1) rfl hdesc₁) rfl, rfl⟩
  refine ⟨_, h6, ?_, rfl, rfl, rfl, rfl, rfl⟩
  show some (Running.mk _ (cut 1 (s.susp (.fiber 1)))) = _
  rw [hsusp]
  rfl

/-- The fiber 1 sends, and is about to switch to the main fiber, which waits in the channel. -/
theorem send_run (ht : s.thr (.work 0) = some ⟨.fiber 1, [.user]⟩)
    (hl : s.lock (.object 0) = none)
    (hobj : s.obj 0 = .channel ((Channel.FiberChannel.create 0).receiveImpl 0).1)
    (hd : s.destroyed 0 = false) (hdesc : s.desc 0 = some ⟨.fiber 0, 1⟩) :
    ∃ s', Relation.ReflTransGen Bare s s' ∧
      s'.thr (.work 0) = some ⟨.fiber 1, [.switch (.enqueue 1) (some 0), .user]⟩ ∧
      s'.desc 1 = some ⟨.fiber 0, 2⟩ := by
  have hopen : (s.obj 0).closed = false := by
    rw [hobj]
    rfl
  have h1 : Relation.ReflTransGen Bare s _ :=
    .single ⟨.of (.quiet ht (.object 0 .send hd)) rfl, batch_thr ht⟩
  have h2 := h1.tail ⟨.of (.quiet (t := .work 0) rfl (.channelOpen 0 .send hopen)) rfl, rfl⟩
  have h3 := h2.tail ⟨⟨.acquire (t := .work 0) (.object 0) rfl rfl hl, fun _ _ => rfl⟩, rfl⟩
  have h4 := h3.tail ⟨.of (.object (t := .work 0) rfl rfl) rfl, rfl⟩
  obtain ⟨k, hk, hkt, hkd⟩ : ∃ k, Relation.ReflTransGen Bare s k ∧
      k.thr (.work 0) = some ⟨.fiber 1, [.copy (some 0) (.enqueue 1), .user]⟩ ∧
      k.desc 0 = some ⟨.fiber 0, 1⟩ := by
    refine ⟨_, h4, ?_, hdesc⟩
    show some (Running.mk _ (((s.obj 0).critical .send 1).2.next 0 1 [.user])) = _
    rw [hobj]
    rfl
  have h5 := hk.tail ⟨.of (.copyFiber hkt) rfl, batch_thr hkt⟩
  have h6 := h5.tail
    ⟨.of (.push (t := .work 0) (f := 1) (x := .fiber 0) (n := 1) rfl hkd) rfl, rfl⟩
  exact ⟨_, h6, rfl, rfl⟩

/-! ## The result -/

/-- **Yielding on one work thread.** The fiber `A` calls `fiber_yield` while the run queue is not
empty. In every run from there

* the fibers of the run queue are resumed, for the first time, in their order;
* they have all been resumed before `A` is;
* from a state in which `A` is executed, it is not resumed before it has been enqueued again, or
  handed over by a channel operation. -/
theorem yield_order (h : SoloReached s) {rest : List Frame}
    (ht : s.thr (.work 0) = some ⟨.fiber A, .getAvailable (.enqueue A) :: rest⟩)
    (hq : s.fiberList ≠ []) :
    (∀ l u, FirstResumed s l u →
      (∃ D R, s.fiberList = D ++ R ∧ D.Sublist l ∧ ∀ g ∈ R, g ∉ l) ∧
      (A ∈ l → ∃ l₁ l₂, l = l₁ ++ A :: l₂ ∧ s.fiberList.Sublist l₁)) ∧
    ∀ u v v', Relation.ReflTransGen SoloStep s u → u.Runs (.fiber A) →
      Relation.ReflTransGen (Skips A) u v → SoloStep v v' → ¬ Resumed A v v' := by
  have hb : s.Busy := ⟨_, ht, rfl⟩
  have hruns : s.Runs (.fiber A) := ⟨_, _, ht⟩
  have hbehind : Behind s.fiberList [] A s := by
    refine ⟨h.solo, hb, .inr (.inr ⟨_, _, _, ht, rfl, .inl hq⟩), ?_, List.not_mem_nil, [],
      s.fiberList, rfl, List.prefix_rfl, fun _ _ => List.not_mem_nil, ?_, .inl (.refl _)⟩
    · intro hA
      exact h.solo.inv.due_not_runs (.inl hA) hruns
    · intro hA
      exact absurd hruns (h.solo.next_not_runs hA)
  refine ⟨?_, ?_⟩
  · intro l u hrun
    rcases hbehind.run h hrun with hu | ⟨l₁, l₂, rfl, hQ⟩
    · refine ⟨?_, fun hA => absurd hA hu.notYet⟩
      obtain ⟨D, R, hall, -, hfresh, -, horder⟩ := hu.split
      rcases horder with hD | ⟨D', g, rfl, -, hD, hg⟩
      · exact ⟨D, R, hall, hD, hfresh⟩
      · refine ⟨D', g :: R, by simp [hall], hD, ?_⟩
        intro x hx
        rcases List.mem_cons.1 hx with rfl | hx
        · exact hg
        · exact hfresh x hx
    · refine ⟨⟨s.fiberList, [], (List.append_nil _).symm, ?_, nofun⟩, fun _ => ⟨l₁, l₂, rfl, hQ⟩⟩
      exact hQ.trans (List.sublist_append_left _ _)
  · intro u v v' hu hrunsu hrun hs hr
    have hur : SoloReached u := h.run hu
    obtain ⟨hv, hd⟩ := Skips.not_due hur (fun hA => hur.solo.inv.due_not_runs hA hrunsu) hrun
    exact hd (.inr (hr.onWay hv.solo.inv hs.1))

/-- The main fiber spawns a fiber and yields, as in `test_fiber_spawn_yield`: the spawned fiber has
been resumed when the main fiber is. -/
theorem yield_order_run : ∃ s, SoloReached s ∧
    s.thr (.work 0) = some ⟨.fiber 0, [.getAvailable (.enqueue 0), .user]⟩ ∧ s.fiberList = [1] ∧
    ∀ l u, FirstResumed s l u → 0 ∈ l → ∃ l₁ l₂, l = l₁ ++ 0 :: l₂ ∧ [1].Sublist l₁ := by
  obtain ⟨s, h, ht, hq, -⟩ := spawn_yield (fun _ => .mutex .create) fun _ => .inl rfl
  refine ⟨s, h, ht, hq, ?_⟩
  intro l u hrun hm
  rw [← hq]
  exact ((yield_order h ht (by simp [hq])).1 l u hrun).2 hm

/-- **A resumption without an enqueue.** The main fiber, resumed after its yield, receives on a
channel and is suspended there; the fiber 1 sends, and switches to it. -/
theorem resumed_again : ¬ ∀ s A rest, SoloReached s →
    s.thr (.work 0) = some ⟨.fiber A, .getAvailable (.enqueue A) :: rest⟩ → s.fiberList ≠ [] →
    ∀ u v v', Relation.ReflTransGen SoloStep s u → u.Runs (.fiber A) →
      Relation.ReflTransGen (fun a b => SoloStep a b ∧ ¬ Enqueued A a b) u v → SoloStep v v' →
      ¬ Resumed A v v' := by
  intro hall
  obtain ⟨s, h, ht, hq, hl, hi, ho, hd, htf, hloop, hdesc, hsusp, htm⟩ :=
    spawn_yield (fun _ => .channel (.create 0)) fun _ => .inr (.inr ⟨0, rfl⟩)
  -- the fiber 1 goes on, and yields
  obtain ⟨u, hu, hut, huq, hul, hui, huo, hud, huf, hudesc, hususp, huloop⟩ :=
    yield_run (g := 1) ht hq (by simp [hl]) hi hdesc hsusp
  have hy := hu.tail (.of (.quiet hut .yield) rfl)
  obtain ⟨v, hv, hvt, hvq, hvl, hvi, hvo, hvd, hvf, hvdesc, hvsusp, hvloop⟩ :=
    yield_run (s := u.run (.work 0) (.fiber 1) [.getAvailable (.enqueue 1), .user]) (g := 0)
      (f := 1) (Function.update_self _ _ _) huq (by simp [State.run, hul, hl]) hui hudesc hususp
  have hsolo := StepOf.solo h.solo.only (hy.trans hv)
  have hvr : SoloReached v := h.run hsolo
  have hne : Thr.timer ≠ .work 0 := by decide
  have hvtm := (StepOf.others (hy.trans hv) hne).trans htm
  have hlv : ∀ L, v.lock L = none := by
    intro L
    rw [hvl]
    exact congrFun (hul.trans hl) L
  -- the main fiber blocks in a receive, and the fiber 1 goes on and sends
  obtain ⟨k, hk, hkt, hkl, hkq, hko, hkd, hkdesc, hkdesc₁, hkloop, hksusp⟩ :=
    receive_run hvt hlv ((congrFun hvo 0).trans (congrFun (huo.trans ho) 0))
      ((congrFun hvd 0).trans (congrFun (hud.trans hd) 0))
      ((congrFun (hvf.trans huf) 0).trans htf) ((hvloop 0).trans ((huloop 0).trans hloop))
  obtain ⟨m, hm, hmt, hml, hmo, hmd, hmdesc, hmsusp⟩ := loop_run hkt hkl (hkq.trans hvq) hkdesc
    (hkdesc₁.trans hvdesc) hkloop (hksusp.trans hvsusp)
  obtain ⟨e, he, het, hed⟩ := send_run hmt hml (hmo.trans hko) (hmd.trans hkd) hmdesc
  obtain ⟨hrun, honly, -⟩ :=
    Bare.not_enqueued (A := 0) hvr.solo.only hvtm ((hk.trans hm).trans he)
  have hes : SoloReached e := hvr.run (Relation.ReflTransGen.mono (fun _ _ h => h.1) _ _ hrun)
  have hlast : StepOf (.work 0) e _ := .of (.switch het hed) rfl
  refine hall s 0 _ h ht (by simp [hq]) v e _ hsolo ⟨_, _, hvt⟩ hrun ⟨hlast.1, ?_⟩ ⟨?_, ?_⟩
  · intro w hw
    have hne : Thr.work w ≠ .work 0 := fun he => hw (Thr.work.inj he)
    exact (hlast.2 _ hne).trans (honly w hw)
  · exact hes.solo.inv.held_not_runs het (by simp [Frame.held])
  · exact ⟨.work 0, cut 2 (e.susp (.fiber 0)), rfl⟩

end Sched
