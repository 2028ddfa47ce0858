import FjxFiber.Sched.Reached

/-!
# The order of the run queue

`Flow` says once what a step does to `sched->fiber_list`, to the lists of the calls that are
enqueueing, and to the fibers that are on their way to a thread. A fiber that is ahead of another
one in the run queue stays ahead of it until it is dispatched (`Ahead`), also in the list of a call
of `enqueue_fiber_list` that takes the queue over. A fiber that is appended meanwhile is not behind
the fibers of that call: `overtaken`.
-/

set_option autoImplicit false

namespace Sched

open Lib Lib.StableQueue Timer

variable {s s' : State} {t t' : Thr} {c c' : Ctx} {F F' : List Frame} {f g A B : Fid} {w : Wid}

/-! ## Fibers on their way -/

/-- The fibers that a call is enqueueing. -/
def Frame.batch : Frame → List Fid
  | enqueue f => [f]
  | enqueueList l | pairUp l _ => l
  | store _ _ k | signal _ k => leftFibers k
  | _ => []

/-- The fiber that a call has popped to switch to it, or is storing for an idle thread. -/
def Frame.going : Frame → List Fid
  | loopCopy f | store f _ _ => [f]
  | copy src _ | push _ src | switch _ src => src.toList
  | _ => []

namespace State

def batch (s : State) (t : Thr) : List Fid :=
  match s.thr t with
  | some r => r.frames.flatMap Frame.batch
  | none => []

def going (s : State) (t : Thr) : List Fid :=
  match s.thr t with
  | some r => r.frames.flatMap Frame.going
  | none => []

end State

@[simp] theorem base_batch (c : Ctx) : (base c).batch = [] := by cases c <;> rfl

@[simp] theorem base_going (c : Ctx) : (base c).going = [] := by cases c <;> rfl

@[simp] theorem Deferred.frame_going (d : Deferred) : d.frame.going = [] := by cases d <;> rfl

theorem batch_call (fr : Frame) (c : Ctx) : [fr, base c].flatMap Frame.batch = fr.batch := by
  simp

theorem going_call (fr : Frame) (c : Ctx) : [fr, base c].flatMap Frame.going = fr.going := by
  simp

theorem batch_thr (ht : s.thr t = some ⟨c, F⟩) : s.batch t = F.flatMap Frame.batch := by
  simp [State.batch, ht]

theorem going_thr (ht : s.thr t = some ⟨c, F⟩) : s.going t = F.flatMap Frame.going := by
  simp [State.going, ht]

theorem Frame.way_sublist (fr : Frame) : (fr.going ++ fr.batch).Sublist fr.held := by
  cases fr with
  | copy src d | push d src | switch d src => simp [going, batch, held]
  | getAvailable | queryMemory | recycle | timerAdd | loopCopy => simp [going, batch, held]
  | _ => exact .refl _

/-- What a call has on its way or is enqueueing, it has in hand. -/
theorem Inv.way_held (h : Inv s) (ht : s.thr t = some ⟨c, F⟩) :
    (s.going t ++ s.batch t).Sublist (F.flatMap Frame.held) := by
  rw [going_thr ht, batch_thr ht]
  cases (h.contexts.shape_of ht) with
  | call _ fr _ => simpa using fr.way_sublist
  | outermost c => simp
  | park | copy | switch => exact .refl _

theorem Inv.way_sublist (h : Inv s) (t : Thr) :
    (s.going t ++ s.batch t).Sublist (s.place (.inl t)) := by
  rcases hr : s.thr t with _ | ⟨c, F⟩
  · simp [State.going, State.batch, hr]
  · rw [place_thr hr]
    exact (h.way_held hr).trans (List.sublist_append_right _ _)

/-- A fiber on its way, or being enqueued, is not executed. -/
theorem Inv.way_not_runs (h : Inv s) (hg : g ∈ s.going t ++ s.batch t) :
    ¬ s.Runs (.fiber g) := by
  rcases hr : s.thr t with _ | ⟨c, F⟩
  · simp [State.going, State.batch, hr] at hg
  · exact h.held_not_runs hr ((h.way_held hr).subset hg)

theorem Inv.mem_place_of_batch (h : Inv s) (hg : g ∈ s.batch t) : g ∈ s.place (.inl t) :=
  (h.way_sublist t).subset (List.mem_append_right _ hg)

theorem Inv.mem_place_of_going (h : Inv s) (hg : g ∈ s.going t) : g ∈ s.place (.inl t) :=
  (h.way_sublist t).subset (List.mem_append_left _ hg)

/-- A fiber on its way is not one of those that the call is still enqueueing. -/
theorem Inv.going_not_batch (h : Inv s) (hg : g ∈ s.going t) : g ∉ s.batch t' := by
  intro hb
  cases h.fibers.place_unique (h.mem_place_of_going hg) (h.mem_place_of_batch hb)
  have hn := (h.way_sublist t).nodup (h.fibers.nodup _)
  exact List.disjoint_of_nodup_append hn hg hb

/-- Nor is it in the run queue. -/
theorem Inv.going_not_queued (h : Inv s) (hg : g ∈ s.going t) : g ∉ s.fiberList := by
  intro hq
  have hp : g ∈ s.place (.inr .queue) := hq
  cases h.fibers.place_unique (h.mem_place_of_going hg) hp

/-! ## What a step does -/

/-- What a step of the thread `t` does to the run queue, and to the fibers that its calls are
enqueueing or have on their way. -/
inductive Flow (s s' : State) (t : Thr) : Prop
  /-- Nothing, but that a call may begin to enqueue. -/
  | calm (hq : s'.fiberList = s.fiberList) (hst : s'.stored = s.stored)
      (hb : s.batch t = [] ∨ s'.batch t = s.batch t) (hg : s'.going t = s.going t)
  | append (hq : s'.fiberList = s.fiberList ++ s.batch t) (hst : s'.stored = s.stored)
      (hb : s'.batch t = []) (hg : s.going t = []) (hg' : s'.going t = [])
  | pop (g : Fid) (hq : s.fiberList = g :: s'.fiberList) (hst : s'.stored = s.stored)
      (hb : s.batch t = []) (hg : s.going t = []) (hg' : s'.going t = [g])
      (ht : ∃ c fr rest, s.thr t = some ⟨c, fr :: rest⟩ ∧ fr.wants = some .queue)
  | assign (g : Fid) (hq : s'.fiberList = s.fiberList) (hst : s'.stored = s.stored)
      (hb : s.batch t = g :: s'.batch t) (hg : s.going t = []) (hg' : s'.going t = [g])
      (ht : ∃ c w k rest, s'.thr t = some ⟨c, .store g w k :: rest⟩)
  /-- `enqueue_fiber_list` takes the run queue over. -/
  | takeOver (hq : s'.fiberList = []) (hst : s'.stored = s.stored) (hb : s.batch t = [])
      (hb' : s'.batch t = s.fiberList) (hg : s.going t = []) (hg' : s'.going t = [])
      (ht : ∃ c ths rest, s.thr t = some ⟨c, .giveBack ths :: rest⟩)
  | give (g : Fid) (w : Wid) (hq : s'.fiberList = s.fiberList)
      (hst : s'.stored = Function.update s.stored w (some g)) (hb : s'.batch t = s.batch t)
      (hg : s.going t = [g]) (hg' : s'.going t = [])
      (ht : (∃ c k rest, s.thr t = some ⟨c, .store g w k :: rest⟩) ∨
        s.thr t = some ⟨.loop w, [.loopCopy g]⟩)
  /-- A channel operation pops the fiber that it switches to. -/
  | transfer (f g : Fid) (hq : s'.fiberList = s.fiberList) (hst : s'.stored = s.stored)
      (hb : s.batch t = []) (hg : s.going t = []) (hg' : s'.going t = [g])
      (ht : ∃ o op rest, s.thr t = some ⟨.fiber f, .objectOp o op :: rest⟩ ∧
        s'.thr t = some ⟨.fiber f, .copy (some g) (.enqueue f) :: rest⟩)
  | switch (f : Fid) (d : Deferred) (src : Option Fid) (hq : s'.fiberList = s.fiberList)
      (hst : s'.stored = s.stored) (hb : s.batch t = []) (hg' : s'.going t = [])
      (ht : s.thr t = some ⟨.fiber f, [.switch d src, .user]⟩)
      (ht' : s'.thr t = some ⟨target t src, [d.frame, base (target t src)]⟩)
  | loopSwitch (w : Wid) (g : Fid) (hq : s'.fiberList = s.fiberList)
      (hst : s'.stored = Function.update s.stored w none) (hb : s.batch t = [])
      (hg' : s'.going t = []) (ht : s.thr t = some ⟨.loop w, [.loopSwitch]⟩)
      (hw : s.stored w = some g) (ht' : s'.thr t = some ⟨.fiber g, [.user]⟩)

theorem Quiet.flow (hq : Quiet s c F F') (h : Shape c F) :
    ((F.flatMap Frame.batch = [] ∨ F'.flatMap Frame.batch = F.flatMap Frame.batch) ∧
      F'.flatMap Frame.going = F.flatMap Frame.going) ∨
    ∃ g, F.flatMap Frame.batch = g :: F'.flatMap Frame.batch ∧ F.flatMap Frame.going = [] ∧
      F'.flatMap Frame.going = [g] ∧ ∃ w k rest, F' = .store g w k :: rest := by
  cases hq with
  | object o op =>
    obtain rfl := h.outer rfl
    cases op <;> exact .inl ⟨.inl rfl, rfl⟩
  | spawn | yield | exit | sleep =>
    obtain rfl := h.outer rfl
    exact .inl ⟨.inl rfl, rfl⟩
  | channelClosed | sleepLate | listDone | pairDone =>
    obtain ⟨rfl, -⟩ := h.inner rfl
    exact .inl ⟨.inl (batch_call _ c), by simp [Frame.going]⟩
  | channelOpen | sleepEarly | pairBack | pairMore =>
    obtain ⟨rfl, -⟩ := h.inner rfl
    exact .inl ⟨.inr rfl, rfl⟩
  | pairNext f l w ths =>
    obtain ⟨rfl, -⟩ := h.inner rfl
    exact .inr ⟨f, rfl, going_call _ c, going_call _ c, w, some (l, ths), [base c], rfl⟩

/-- **What a step does to the run queue.** -/
theorem Step.flow (hi : Inv s) (hs : Step s s') :
    ∃ t, (∀ t', t' ≠ t → s'.thr t' = s.thr t') ∧ Flow s s' t := by
  have hself : ∀ {t c F} {s' : State}, s'.thr = Function.update s.thr t (some ⟨c, F⟩) →
      s'.batch t = F.flatMap Frame.batch ∧ s'.going t = F.flatMap Frame.going :=
    fun hthr => ⟨batch_thr (thr_self hthr), going_thr (thr_self hthr)⟩
  have hcall : ∀ {t c fr rest}, s.thr t = some ⟨c, fr :: rest⟩ → fr.inner = true →
      s.batch t = fr.batch ∧ s.going t = fr.going ∧ rest = [base c] := by
    intro t c fr rest ht hfr
    obtain ⟨rfl, -⟩ := (hi.contexts.shape_of ht).inner hfr
    exact ⟨(batch_thr ht).trans (batch_call fr c), (going_thr ht).trans (going_call fr c), rfl⟩
  have hcalm : ∀ {t c F c' F'} {s' : State}, s.thr t = some ⟨c, F⟩ →
      s'.thr = Function.update s.thr t (some ⟨c', F'⟩) → s'.fiberList = s.fiberList →
      s'.stored = s.stored →
      (F.flatMap Frame.batch = [] ∨ F'.flatMap Frame.batch = F.flatMap Frame.batch) →
      F'.flatMap Frame.going = F.flatMap Frame.going →
      ∃ t, (∀ t', t' ≠ t → s'.thr t' = s.thr t') ∧ Flow s s' t := by
    intro t c F c' F' s' ht hthr hq hst hbatch hgoing
    refine ⟨t, fun _ => thr_other hthr, .calm hq hst ?_ ?_⟩
    · rw [batch_thr ht, (hself hthr).1]
      exact hbatch
    · rw [going_thr ht, (hself hthr).2]
      exact hgoing
  cases hs with
  | @quiet t c F F' ht hq =>
    have hshape := hi.contexts.shape_of ht
    rcases hq.flow hshape with ⟨hbatch, hgoing⟩ | ⟨g, h1, h2, h3, w, k, rest, rfl⟩
    · exact hcalm ht rfl rfl rfl hbatch hgoing
    · refine ⟨t, fun _ => thr_other rfl, .assign g rfl rfl ?_ ((going_thr ht).trans h2) ?_
        ⟨c, w, k, rest, thr_self rfl⟩⟩
      · rw [batch_thr ht, (hself rfl).1, h1]
      · rw [(hself rfl).2, h3]
  | @acquire t c fr rest L ht hw hl => exact ⟨t, fun _ _ => rfl, .calm rfl rfl (.inr rfl) rfl⟩
  | @timerWait t rest ht hl => exact ⟨t, fun _ _ => rfl, .calm rfl rfl (.inr rfl) rfl⟩
  | start w ht =>
    refine ⟨.work w, fun _ => thr_other rfl, .calm rfl rfl (.inl (by simp [State.batch, ht])) ?_⟩
    rw [(hself rfl).2, State.going, ht]
    rfl
  | @availPop t c d rest g l ht hl hq =>
    obtain ⟨hb, hg, rfl⟩ := hcall ht rfl
    exact ⟨t, fun _ => thr_other rfl, .pop g hq rfl hb hg ((hself rfl).2.trans (going_call _ c))
      ⟨_, _, _, ht, rfl⟩⟩
  | @loopPop t w g l rest ht hl hq =>
    obtain rfl := (hi.contexts.shape_of ht).outer rfl
    exact ⟨t, fun _ => thr_other rfl, .pop g hq rfl (batch_thr ht) (going_thr ht)
      ((hself rfl).2.trans rfl) ⟨_, _, _, ht, rfl⟩⟩
  | @enqueueIdle t c g w ws rest ht hl hn =>
    obtain ⟨hb, hg, rfl⟩ := hcall ht rfl
    refine ⟨t, fun _ => thr_other rfl, .assign g rfl rfl ?_ hg
      ((hself rfl).2.trans (going_call _ c)) ⟨c, w, none, _, thr_self rfl⟩⟩
    rw [hb, (hself rfl).1, batch_call]
    rfl
  | @enqueueTail t c g rest ht hl hn | @listTail t c g l rest ht hl hn =>
    obtain ⟨hb, hg, rfl⟩ := hcall ht rfl
    refine ⟨t, fun _ => thr_other rfl, .append ?_ rfl ?_ hg ?_⟩
    · rw [hb]
      rfl
    · rw [(hself rfl).1]
      simp
    · rw [(hself rfl).2]
      simp
  | @backSteal t c ths rest ht hl hq =>
    obtain ⟨hb, hg, rfl⟩ := hcall ht rfl
    exact ⟨t, fun _ => thr_other rfl, .takeOver rfl rfl hb ((hself rfl).1.trans (batch_call _ c)) hg
      ((hself rfl).2.trans (going_call _ c)) ⟨_, _, _, ht⟩⟩
  | @store t c g w k rest ht =>
    obtain ⟨hb, hg, rfl⟩ := hcall ht rfl
    refine ⟨t, fun _ => thr_other rfl, .give g w rfl rfl ?_ hg
      ((hself rfl).2.trans (going_call _ c)) (.inl ⟨_, _, _, ht⟩)⟩
    rw [hb, (hself rfl).1, batch_call]
    rfl
  | @loopCopy t w g rest ht =>
    obtain rfl := (hi.contexts.shape_of ht).outer rfl
    refine ⟨t, fun _ => thr_other rfl, .give g w rfl rfl ?_ (going_thr ht) ((hself rfl).2.trans rfl)
      (.inr ht)⟩
    rw [batch_thr ht, (hself rfl).1]
    rfl
  | @switch t f d src rest x n ht hd =>
    obtain ⟨rfl, -, rfl, hcut⟩ := hi.switch_target ht hd
    refine ⟨t, fun _ => thr_other rfl, .switch f d src rfl rfl (hcall ht rfl).1 ?_ ht ?_⟩
    · rw [(hself rfl).2, hcut]
      simp
    · rw [thr_self rfl, hcut]
  | @loopSwitch t w x n rest ht hd =>
    obtain ⟨g, rfl, hw, rfl, hcut⟩ := hi.loopSwitch_target ht hd
    refine ⟨t, fun _ => thr_other rfl, .loopSwitch w g rfl rfl (batch_thr ht) ?_ ht hw ?_⟩
    · rw [(hself rfl).2, hcut]
      rfl
    · rw [thr_self rfl, hcut]
  | @object t f o op rest ht hl =>
    obtain ⟨hb, hg, rfl⟩ := hcall ht rfl
    cases hout : ((s.obj o).critical op f).2 with
    | transfer g =>
      refine ⟨t, fun _ => thr_other rfl, .transfer f g rfl rfl hb hg ?_
        ⟨o, op, _, ht, thr_self rfl⟩⟩
      rw [(hself rfl).2]
      exact going_call _ (.fiber f)
    | ret | block | wake | drain =>
      exact hcalm ht rfl rfl rfl (.inl (batch_call _ (.fiber f))) rfl
  | @signalNext t c w l ths rest ht | @listTake t c g l rest ht =>
    exact hcalm ht rfl rfl rfl (.inr rfl) rfl
  | loopIdle ht | loopWake ht =>
    obtain rfl := (hi.contexts.shape_of ht).outer rfl
    exact hcalm ht rfl rfl rfl (.inl rfl) rfl
  | expire cur ht =>
    obtain rfl := (hi.contexts.shape_of ht).outer rfl
    exact hcalm ht rfl rfl rfl (.inl rfl) rfl
  | yieldEmpty ht | availEmpty ht | copyFiber ht | copyThread ht | push ht | signal ht
  | backIdle ht | unlock ht | recycle ht | timerAdd ht | spawnPop ht | spawnEmpty ht
  | queryMemory ht | spawnNew _ ht =>
    obtain ⟨-, -, rfl⟩ := hcall ht rfl
    exact hcalm ht rfl rfl rfl (.inl (batch_call _ _)) rfl

/-! ## First in, first out -/

/-- `g` waits in the run queue, or in the list of a call that is enqueueing. -/
def State.Queued (s : State) (g : Fid) : Prop := g ∈ s.fiberList ∨ ∃ t, g ∈ s.batch t

/-- `g` is appended to the run queue. -/
def Appended (g : Fid) (s s' : State) : Prop :=
  Step s s' ∧ g ∉ s.fiberList ∧ g ∈ s'.fiberList

/-- `g` is popped to be run, or assigned to an idle thread. -/
def Dispatched (g : Fid) (s s' : State) : Prop := s.Queued g ∧ ∃ t, g ∈ s'.going t

/-- A step that does not dispatch `A`. -/
def Avoids (A : Fid) (s s' : State) : Prop := Step s s' ∧ ¬ Dispatched A s s'

/-- `A` is ahead of `B` in the run queue, or in the list of a call that is enqueueing. -/
def State.Ahead (s : State) (A B : Fid) : Prop :=
  [A, B].Sublist s.fiberList ∨ ∃ t, [A, B].Sublist (s.batch t)

theorem State.Ahead.queued (h : s.Ahead A B) : s.Queued A ∧ s.Queued B := by
  rcases h with h | ⟨t, h⟩
  · exact ⟨.inl (h.subset (by simp)), .inl (h.subset (by simp))⟩
  · exact ⟨.inr ⟨t, h.subset (by simp)⟩, .inr ⟨t, h.subset (by simp)⟩⟩

/-- A fiber that waits is not on its way. -/
theorem Inv.queued_not_going (h : Inv s) (hq : s.Queued g) : g ∉ s.going t := by
  intro hg
  rcases hq with hq | ⟨t', hb⟩
  · exact h.going_not_queued hg hq
  · exact h.going_not_batch hg hb

theorem batch_other (h : s'.thr t = s.thr t) : s'.batch t = s.batch t := by
  unfold State.batch
  rw [h]

theorem going_other (h : s'.thr t = s.thr t) : s'.going t = s.going t := by
  unfold State.going
  rw [h]

/-- Of a list that loses its head, the pair stays or its first fiber is the head. -/
theorem pair_of_cons {l : List Fid} (h : [A, B].Sublist (g :: l)) :
    [A, B].Sublist l ∨ (A = g ∧ B ∈ l) := by
  cases h with
  | cons _ h => exact .inl h
  | cons_cons _ h => exact .inr ⟨rfl, List.singleton_sublist.1 h⟩

/-- **One step.** A fiber that is ahead stays ahead until it is dispatched; the one behind it waits
in either case. -/
theorem State.Ahead.step (h : s.Ahead A B) (hi : Inv s) (hs : Step s s') :
    s'.Ahead A B ∨ (Dispatched A s s' ∧ s'.Queued B) := by
  have hw := h.queued.1
  obtain ⟨t, hother, hf⟩ := hs.flow hi
  -- the lists of the other threads stay
  have hcalls : ∀ {t'}, t' ≠ t → [A, B].Sublist (s.batch t') → s'.Ahead A B := by
    intro t' hne hab
    exact .inr ⟨t', by rwa [batch_other (hother t' hne)]⟩
  have hlist : s'.fiberList = s.fiberList → (s.batch t = [] ∨ s'.batch t = s.batch t) →
      s'.Ahead A B := by
    intro hq hb
    rcases h with hab | ⟨t', hab⟩
    · exact .inl (by rwa [hq])
    · by_cases hne : t' = t
      · subst hne
        rcases hb with hb | hb
        · rw [hb] at hab
          cases hab
        · exact .inr ⟨t', by rwa [hb]⟩
      · exact hcalls hne hab
  cases hf with
  | calm hq hst hb hg => exact .inl (hlist hq hb)
  | give g w hq hst hb => exact .inl (hlist hq (.inr hb))
  | transfer _ _ hq hst hb | switch _ _ _ hq hst hb | loopSwitch _ _ hq hst hb =>
    exact .inl (hlist hq (.inl hb))
  | append hq hst hb hg hg' =>
    refine .inl ?_
    rcases h with hab | ⟨t', hab⟩
    · refine .inl ?_
      rw [hq]
      exact hab.trans (List.sublist_append_left _ _)
    · by_cases hne : t' = t
      · subst hne
        refine .inl ?_
        rw [hq]
        exact hab.trans (List.sublist_append_right _ _)
      · exact hcalls hne hab
  | pop g hq hst hb hg hg' ht =>
    rcases h with hab | ⟨t', hab⟩
    · rw [hq] at hab
      rcases pair_of_cons hab with hab | ⟨rfl, hB⟩
      · exact .inl (.inl hab)
      · exact .inr ⟨⟨hw, t, by simp [hg']⟩, .inl hB⟩
    · by_cases hne : t' = t
      · subst hne
        rw [hb] at hab
        cases hab
      · exact .inl (hcalls hne hab)
  | assign g hq hst hb hg hg' ht =>
    rcases h with hab | ⟨t', hab⟩
    · exact .inl (.inl (by rwa [hq]))
    · by_cases hne : t' = t
      · subst hne
        rw [hb] at hab
        rcases pair_of_cons hab with hab | ⟨rfl, hB⟩
        · exact .inl (.inr ⟨t', hab⟩)
        · exact .inr ⟨⟨hw, t', by simp [hg']⟩, .inr ⟨t', hB⟩⟩
      · exact .inl (hcalls hne hab)
  | takeOver hq hst hb hb' hg hg' ht =>
    refine .inl ?_
    rcases h with hab | ⟨t', hab⟩
    · exact .inr ⟨t, by rwa [hb']⟩
    · by_cases hne : t' = t
      · subst hne
        rw [hb] at hab
        cases hab
      · exact hcalls hne hab

/-- **A run** that does not dispatch `A` keeps it ahead. -/
theorem State.Ahead.run (h : s.Ahead A B) (hr : Reached s)
    (hrun : Relation.ReflTransGen (Avoids A) s s') : Reached s' ∧ s'.Ahead A B := by
  induction hrun with
  | refl => exact ⟨hr, h⟩
  | tail _ hs ih =>
    obtain ⟨hr', hab⟩ := ih
    refine ⟨hr'.next hs.1, ?_⟩
    rcases hab.step hr'.inv hs.1 with hab' | ⟨hd, -⟩
    · exact hab'
    · exact absurd hd hs.2

/-- What is appended goes behind everything in the run queue. -/
theorem Appended.behind (hi : Inv s) (h : Appended B s s') (hA : A ∈ s.fiberList) :
    s'.Ahead A B := by
  obtain ⟨hs, hn, hm⟩ := h
  obtain ⟨t, -, hf⟩ := hs.flow hi
  have hsame : s'.fiberList ≠ s.fiberList := by
    intro hq
    rw [hq] at hm
    exact hn hm
  cases hf with
  | append hq hst hb hg hg' =>
    rw [hq] at hm
    have hB := (List.mem_append.1 hm).resolve_left hn
    refine .inl ?_
    rw [hq]
    exact List.Sublist.append (List.singleton_sublist.2 hA) (List.singleton_sublist.2 hB)
  | pop g hq hst hb hg hg' ht =>
    rw [hq] at hn
    exact absurd (List.mem_cons_of_mem _ hm) hn
  | takeOver hq hst hb hb' hg hg' ht =>
    rw [hq] at hm
    cases hm
  | calm hq | assign _ hq | give _ _ hq | transfer _ _ hq | switch _ _ _ hq | loopSwitch _ _ hq =>
    exact absurd hq hsame

/-! ## Runs of one thread -/

/-- A step of the thread `t`. -/
def StepOf (t : Thr) (s s' : State) : Prop := Step s s' ∧ ∀ t', t' ≠ t → s'.thr t' = s.thr t'

theorem StepOf.of {r : Running} (hs : Step s s')
    (hthr : s'.thr = Function.update s.thr t (some r)) : StepOf t s s' := by
  refine ⟨hs, ?_⟩
  intro t' hne
  rw [hthr, Function.update_of_ne hne]

/-- A fiber that waits after a step has not been dispatched in it. -/
theorem avoids_of_queued (h : Reached s) (hs : Step s s') (hA : s'.Queued A) : Avoids A s s' := by
  refine ⟨hs, ?_⟩
  intro ⟨_, t, hg⟩
  exact (Reached.inv (h.next hs)).queued_not_going hA hg

/-- While the other threads stand still, no fiber is dispatched that waits in one of their
lists. -/
theorem avoids_of_batch (h : Reached s) (hrun : Relation.ReflTransGen (StepOf t) s s')
    (hne : t' ≠ t) (hA : A ∈ s.batch t') :
    Relation.ReflTransGen (Avoids A) s s' ∧ A ∈ s'.batch t' := by
  induction hrun with
  | refl => exact ⟨.refl, hA⟩
  | @tail u u' hu hs ih =>
    obtain ⟨hrun, hA⟩ := ih
    have hA' : A ∈ u'.batch t' := by rwa [batch_other (hs.2 t' hne)]
    have hr : Reached u := h.run (Relation.ReflTransGen.mono (fun _ _ h => h.1) _ _ hu)
    exact ⟨hrun.tail (avoids_of_queued hr hs.1 (.inr ⟨t', hA'⟩)), hA'⟩

/-- The state after `g` has been spawned, if no thread is idle. -/
def State.spawns (s : State) (g : Fid) : State :=
  { s with
    susp := Function.update s.susp (.fiber g) [.user]
    saved := Function.update s.saved (.fiber g) (some 1)
    desc := Function.update s.desc g (some ⟨.fiber g, 1⟩)
    spawned := Function.update s.spawned g true
    fiberList := s.fiberList ++ [g] }

/-- `fiber_spawn` appends the new fiber in its last step, if no thread is idle. -/
theorem spawn_run {rest : List Frame} (ht : s.thr t = some ⟨.fiber f, .user :: rest⟩)
    (hdl : s.lock .disposed = none) (hql : s.lock .queue = none)
    (hdis : s.disposedFiberList = []) (hidle : s.idleThreadList = [])
    (hg : s.spawned g = false) :
    ∃ u, Relation.ReflTransGen (StepOf t) s u ∧ u.fiberList = s.fiberList ∧
      StepOf t u (s.spawns g) := by
  have hself : ∀ {h : Thr → Option Running} {r}, Function.update h t r t = r :=
    Function.update_self _ _ _
  have h1 : Relation.ReflTransGen (StepOf t) s _ := .single (.of (.quiet ht .spawn) rfl)
  have h2 := h1.tail ⟨.acquire .disposed hself rfl hdl, fun _ _ => rfl⟩
  have h3 := h2.tail (.of (.spawnEmpty hself (by simp) hdis) rfl)
  have h4 := h3.tail (.of (.spawnNew g hself hg) rfl)
  have h5 := h4.tail ⟨.acquire .queue hself rfl
    (by simp [State.run, State.release, State.setDesc, hql]), fun _ _ => rfl⟩
  have hlast : ∀ {u}, Relation.ReflTransGen (StepOf t) s u →
      u.thr t = some ⟨.fiber f, .enqueue g :: .user :: rest⟩ → u.lock .queue = some t →
      u.idleThreadList = [] → StepOf t u { (u.run t (.fiber f) (.user :: rest)).release .queue with
        fiberList := u.fiberList ++ [g] } :=
    fun _ ht hl hi => .of (.enqueueTail ht hl hi) rfl
  have h6 := hlast h5 hself (by simp) hidle
  refine ⟨_, h5, rfl, ?_⟩
  have hthr : ∀ {h : Thr → Option Running}, h t = some ⟨.fiber f, .user :: rest⟩ →
      Function.update h t (some ⟨.fiber f, .user :: rest⟩) = h := by
    intro h he
    rw [← he, Function.update_eq_self]
  have hfree : ∀ {h : Lock → Option Thr} {L}, h L = none → Function.update h L none = h := by
    intro h L he
    rw [← he, Function.update_eq_self]
  convert h6 using 1
  simp only [State.spawns, State.run, State.release, State.setDesc, Function.update_idem,
    hthr ht, hfree hdl, hfree hql]

/-! ## The result -/

/-- **The run queue is first-in first-out**, for any number of work threads, in this sense: a fiber
that is appended while `A` is in the run queue is behind `A`, and a fiber that is behind `A`, in the
run queue or in the list of one call of `enqueue_fiber_list`, is not dispatched before `A` is. -/
theorem run_queue_fifo (h : Reached s) (A B : Fid) :
    (∀ s', A ∈ s.fiberList → Appended B s s' → s'.Ahead A B) ∧
    (s.Ahead A B → ∀ u u', Relation.ReflTransGen (Avoids A) s u → Step u u' →
      ¬ Dispatched B u u') := by
  refine ⟨fun s' hA hB => hB.behind h.inv hA, ?_⟩
  intro hab u u' hrun hs hd
  obtain ⟨hr, hab⟩ := hab.run h hrun
  obtain ⟨-, t, hg⟩ := hd
  have hi : Inv u' := Reached.inv (hr.next hs)
  refine hi.queued_not_going ?_ hg
  rcases hab.step hr.inv hs with hab' | ⟨-, hB⟩
  · exact hab'.queued.2
  · exact hB

/-- The main fiber spawns two fibers: the second is not dispatched before the first. -/
theorem run_queue_fifo_run : ∃ s, Reached s ∧ s.fiberList = [1, 2] ∧
    ∀ u u', Relation.ReflTransGen (Avoids 1) s u → Step u u' → ¬ Dispatched 2 u u' := by
  let s₀ := State.start fun _ => .mutex .create
  have h0 : Reached s₀ := .start ⟨_, fun _ => .inl rfl, rfl⟩
  obtain ⟨u, hu, -, hlast⟩ := spawn_run (s := s₀) (t := .work 0) (g := 1) rfl rfl rfl rfl rfl rfl
  have h1 : Reached (s₀.spawns 1) :=
    (h0.run (Relation.ReflTransGen.mono (fun _ _ h => h.1) _ _ hu)).next hlast.1
  obtain ⟨v, hv, -, hlast⟩ := spawn_run (s := s₀.spawns 1) (t := .work 0) (g := 2)
    rfl rfl rfl rfl rfl rfl
  have h2 : Reached (State.spawns _ 2) :=
    (h1.run (Relation.ReflTransGen.mono (fun _ _ h => h.1) _ _ hv)).next hlast.1
  exact ⟨_, h2, rfl, (run_queue_fifo h2 1 2).2 (.inl (.refl _))⟩

/-- **Overtaking.** A thread goes idle, the main fiber sleeps, and both threads are taken by the
timer thread for it; it takes over the run queue with the fiber 1 for the thread that is left. The
fiber 2, appended after that, is dispatched before 1. -/
theorem overtaken : ¬ ∀ A B s s' u u' v v', Reached s → Appended A s s' →
    Relation.ReflTransGen (Avoids A) s' u → Appended B u u' →
    Relation.ReflTransGen (Avoids A) u' v → Step v v' → ¬ Dispatched B v v' := by
  intro hall
  let tp : Timespec := ⟨0, 0⟩
  have h0 : Reached (.start fun _ => .mutex .create) := .start ⟨_, fun _ => .inl rfl, rfl⟩
  -- the main fiber is about to switch to the loop, to sleep
  obtain ⟨s, hs, hw, hw₁, htm, hl, hlists, hsp, hsusp, hdesc⟩ : ∃ s, Reached s ∧
      s.thr (.work 0) = some ⟨.fiber 0, [.switch (.timerAdd 0 tp) none, .user]⟩ ∧
      s.thr (.work 1) = none ∧ s.thr .timer = some ⟨.timer, [.timerTop]⟩ ∧
      (s.lock .queue = none ∧ s.lock .disposed = none ∧ s.lock .timer = none) ∧
      (s.idleThreadList = [] ∧ s.disposedFiberList = [] ∧ s.fiberList = [] ∧ s.timeList = [] ∧
        s.inserts = 0) ∧
      (s.spawned 1 = false ∧ s.spawned 2 = false ∧ s.sem 0 = 0) ∧
      s.susp (.loop 0) = [.timerAdd 0 tp, .loopTop] ∧ s.desc 0 = some ⟨.loop 0, 2⟩ := by
    have h1 := h0.next (.quiet (t := .work 0) rfl (.sleep tp))
      |>.next (.quiet (t := .work 0) rfl (.sleepEarly tp))
      |>.next (.acquire (t := .work 0) .queue rfl rfl rfl)
      |>.next (.availEmpty (t := .work 0) rfl rfl rfl (by simp))
      |>.next (.copyThread (w := 0) rfl) |>.next (.push (t := .work 0) rfl rfl)
    exact ⟨_, h1, rfl, rfl, rfl, ⟨rfl, rfl, rfl⟩, ⟨rfl, rfl, rfl, rfl, rfl⟩, ⟨rfl, rfl, rfl⟩, rfl,
      rfl⟩
  -- both threads are idle
  obtain ⟨u, hu, huw, hut, hul, hulists, husp, hususp, hudesc⟩ : ∃ u, Reached u ∧
      u.thr (.work 0) = some ⟨.loop 0, [.loopPark]⟩ ∧
      u.thr .timer = some ⟨.timer, [.timerTop]⟩ ∧
      (u.lock .queue = none ∧ u.lock .disposed = none ∧ u.lock .timer = none) ∧
      (u.idleThreadList = [0, 1] ∧ u.disposedFiberList = [] ∧ u.fiberList = [] ∧
        u.timeList = [⟨tp, 0, 0⟩]) ∧
      (u.spawned 1 = false ∧ u.spawned 2 = false ∧ u.sem 0 = 0) ∧
      u.susp (.fiber 0) = [.user] ∧ u.desc 0 = some ⟨.fiber 0, 1⟩ := by
    have h1 := hs.next (.switch hw hdesc)
    rw [hsusp] at h1
    have h2 := h1.next (.acquire (t := .work 0) .timer rfl rfl hl.2.2)
      |>.next (.timerAdd (t := .work 0) rfl rfl)
      |>.next (.acquire (t := .work 0) .queue rfl rfl hl.1)
      |>.next (.loopIdle (t := .work 0) rfl rfl hlists.2.2.1)
      |>.next (.start 1 hw₁) |>.next (.acquire (t := .work 1) .queue rfl rfl rfl)
      |>.next (.loopIdle (t := .work 1) rfl rfl hlists.2.2.1)
    refine ⟨_, h2, rfl, htm, ⟨rfl, hl.2.1, rfl⟩, ⟨?_, hlists.2.1, hlists.2.2.1, ?_⟩, hsp, rfl, rfl⟩
    · show (s.idleThreadList ++ [0]) ++ [1] = [0, 1]
      rw [hlists.1]
      rfl
    · show insertStable ⟨tp, s.inserts, 0⟩ s.timeList = [⟨tp, 0, 0⟩]
      rw [hlists.2.2.2.1, hlists.2.2.2.2]
      rfl
  -- the main fiber goes on, and the timer thread has one thread left
  obtain ⟨v, hv, hvw, hvt, hvl, hvlists, hvsp⟩ : ∃ v, Reached v ∧
      v.thr (.work 0) = some ⟨.fiber 0, [.user]⟩ ∧
      v.thr .timer = some ⟨.timer, [.giveBack [1], .timerTop]⟩ ∧
      (v.lock .queue = none ∧ v.lock .disposed = none) ∧
      (v.idleThreadList = [] ∧ v.disposedFiberList = [] ∧ v.fiberList = []) ∧
      v.spawned 1 = false ∧ v.spawned 2 = false := by
    have h1 := hu.next (.acquire (t := .timer) .timer hut rfl hul.2.2)
      |>.next (.expire (t := .timer) tp hut rfl ⟨⟨tp, 0, 0⟩, by simp [hulists], le_refl tp⟩)
    rw [hulists.2.2.2] at h1
    have h2 := h1.next (.acquire (t := .timer) .queue rfl rfl hul.1)
      |>.next (.listTake (t := .timer) rfl rfl (by simp [State.release, State.run, hulists]))
    have hpair : ∀ {k : State}, k.idleThreadList = u.idleThreadList →
        k.idleThreadList = [0, 1] := fun h => h.trans hulists.1
    rw [hpair rfl] at h2
    have h3 := h2.next (.quiet (t := .timer) rfl (.pairNext 0 [] 0 [1]))
      |>.next (.store (t := .timer) rfl) |>.next (.signalNext (t := .timer) rfl)
      |>.next (.quiet (t := .timer) rfl (.pairBack 1 []))
      |>.next (.loopWake (t := .work 0) huw rfl)
    obtain ⟨k, hk, hkw, hkt, hkl, hklists, hksp, hktf, hksusp⟩ : ∃ k, Reached k ∧
        k.thr (.work 0) = some ⟨.loop 0, [.loopSwitch]⟩ ∧
        k.thr .timer = some ⟨.timer, [.giveBack [1], .timerTop]⟩ ∧
        (k.lock .queue = none ∧ k.lock .disposed = none) ∧
        (k.idleThreadList = [] ∧ k.disposedFiberList = [] ∧ k.fiberList = []) ∧
        (k.spawned 1 = false ∧ k.spawned 2 = false) ∧ k.threadFiber 0 = some ⟨.fiber 0, 1⟩ ∧
        k.susp (.fiber 0) = [.user] :=
      ⟨_, h3, rfl, rfl, ⟨rfl, hul.2.1⟩, ⟨rfl, hulists.2.1, hulists.2.2.1⟩, ⟨husp.1, husp.2.1⟩,
        hudesc, hususp⟩
    have h4 := hk.next (.loopSwitch (t := .work 0) hkw hktf)
    rw [hksusp] at h4
    exact ⟨_, h4, rfl, hkt, hkl, hklists, hksp⟩
  -- it spawns the fiber 1, and the timer thread takes that over
  obtain ⟨x, hx, hxq, hlast⟩ := spawn_run hvw hvl.2 hvl.1 hvlists.2.1 hvlists.1 hvsp.1
  have hxr : Reached x := hv.run (Relation.ReflTransGen.mono (fun _ _ h => h.1) _ _ hx)
  have hlist : (v.spawns 1).fiberList = [1] := by
    show v.fiberList ++ [1] = [1]
    rw [hvlists.2.2]
    rfl
  have hA : Appended 1 x (v.spawns 1) := by
    refine ⟨hlast.1, ?_, by simp [hlist]⟩
    rw [hxq, hvlists.2.2]
    exact List.not_mem_nil
  have hr0 : Reached (v.spawns 1) := hxr.next hlast.1
  obtain ⟨k, hk, hkr, hkw, hkb, hkl, hklists, hksp⟩ : ∃ k, Relation.ReflTransGen (Avoids 1)
      (v.spawns 1) k ∧ Reached k ∧ k.thr (.work 0) = some ⟨.fiber 0, [.user]⟩ ∧
      k.batch .timer = [1] ∧ (k.lock .queue = none ∧ k.lock .disposed = none) ∧
      (k.idleThreadList = [] ∧ k.disposedFiberList = [] ∧ k.fiberList = []) ∧
      k.spawned 2 = false := by
    have h1 := Step.acquire (s := v.spawns 1) (t := .timer) .queue hvt rfl hvl.1
    have hr1 := hr0.next h1
    have h2 : Step { v.spawns 1 with
        lock := Function.update (v.spawns 1).lock .queue (some .timer) } _ :=
      .backSteal (t := .timer) hvt rfl (by simp [hlist])
    refine ⟨_, .tail (.single (avoids_of_queued hr0 h1 (.inl ?_)))
      (avoids_of_queued hr1 h2 (.inr ⟨.timer, ?_⟩)), hr1.next h2, hvw, ?_, ⟨rfl, hvl.2⟩,
      ⟨hvlists.1, hvlists.2.1, rfl⟩, ?_⟩
    · simp [hlist]
    · simp [State.batch, State.run, State.release, Frame.batch, hlist]
    · simp [State.batch, State.run, State.release, Frame.batch, hlist]
    · exact hvsp.2
  -- the fiber 2 is spawned and popped
  obtain ⟨y, hy, hyq, hylast⟩ := spawn_run hkw hkl.2 hkl.1 hklists.2.1 hklists.1 hksp
  have hyr : Reached y := hkr.run (Relation.ReflTransGen.mono (fun _ _ h => h.1) _ _ hy)
  have hne : Thr.timer ≠ .work 0 := by decide
  obtain ⟨hyA, hyb⟩ := avoids_of_batch hkr hy hne (hkb ▸ List.mem_singleton_self 1)
  have hlist2 : (k.spawns 2).fiberList = [2] := by
    show k.fiberList ++ [2] = [2]
    rw [hklists.2.2]
    rfl
  have hB : Appended 2 y (k.spawns 2) := by
    refine ⟨hylast.1, ?_, by simp [hlist2]⟩
    rw [hyq, hklists.2.2]
    exact List.not_mem_nil
  have hrun : Relation.ReflTransGen (StepOf (.work 0)) (k.spawns 2) _ :=
    .tail (.single (.of (.quiet (t := .work 0) hkw .yield) rfl))
      ⟨.acquire (t := .work 0) .queue rfl rfl hkl.1, fun _ _ => rfl⟩
  obtain ⟨hA2, -⟩ := avoids_of_batch (hyr.next hylast.1) hrun hne
    (A := 1) (by rw [batch_other (hylast.2 _ hne)]; exact hyb)
  refine hall 1 2 _ _ _ _ _ _ hxr hA (hk.trans hyA) hB hA2
    (.availPop (t := .work 0) rfl rfl hlist2) ⟨.inl ?_, .work 0, ?_⟩
  · show 2 ∈ (k.spawns 2).fiberList
    simp [hlist2]
  · simp [State.going, State.run, State.release, Frame.going]

end Sched
