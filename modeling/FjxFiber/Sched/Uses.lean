import FjxFiber.Sched.Reached

/-!
# What a step is to one object

A thread uses the object `o` when it is about to test or to enter it, or has its lock until the
deferred release (`State.use`). `Step.seen`: to `o` a step is a call, the test that send and close
make without the lock, a section, a deferred release, or nothing at all.
-/

set_option autoImplicit false

namespace Sched

open Lib

/-- Frames are not what is left once the innermost call returns. -/
theorem frames_ne (fr : Frame) (rest : List Frame) : rest ≠ fr :: rest :=
  fun h => absurd (congrArg List.length h) (by simp)

/-! ## Uses -/

inductive Use
  /-- Send and close: about to test whether the channel is closed. -/
  | test (c : Ctx) (op : Op)
  | enter (c : Ctx) (op : Op)
  /-- Holds the lock until the deferred release. -/
  | guard
  deriving DecidableEq

def Frame.use (o : Oid) (c : Ctx) : Frame → Option Use
  | .channelTest o' op => if o' = o then some (.test c op) else none
  | .objectOp o' op => if o' = o then some (.enter c op) else none
  | fr => if fr.guards = some o then some .guard else none

def Running.use (o : Oid) (r : Running) : Option Use :=
  match r.frames with
  | fr :: _ => fr.use o r.ctx
  | [] => none

/-- What the thread `t` does to `o`. -/
def State.use (s : State) (o : Oid) (t : Thr) : Option Use := (s.thr t).bind (Running.use o)

variable {s s' : State} {o : Oid} {t t' : Thr} {c x : Ctx} {F F' rest : List Frame} {fr : Frame}
  {r r' : Running}

@[simp] theorem use_base (c x : Ctx) : (base c).use o x = none := by cases c <;> rfl

theorem Deferred.frame_use (d : Deferred) (src : Option Fid) :
    d.frame.use o x = (Frame.switch d src).use o c := by
  cases d <;> rfl

theorem State.use_eq (ht : s.thr t = some r) : s.use o t = r.use o := by
  unfold State.use
  rw [ht]
  rfl

theorem State.use_self (hthr : s'.thr = Function.update s.thr t (some r')) :
    s'.use o t = r'.use o := by
  unfold State.use
  rw [hthr, Function.update_self]
  rfl

theorem State.use_other (hthr : s'.thr = Function.update s.thr t (some r')) (h : t' ≠ t) :
    s'.use o t' = s.use o t' := by
  unfold State.use
  rw [hthr, Function.update_of_ne h]

theorem State.use_keep (ht : s.thr t = some r) (hthr : s'.thr = Function.update s.thr t (some r'))
    (h : r'.use o = r.use o) : s'.use o = s.use o := by
  funext t'
  by_cases he : t' = t
  · subst he
    rw [State.use_self hthr, State.use_eq ht, h]
  · exact State.use_other hthr he

/-- Who uses the object has the frame for it. -/
theorem State.use_enter {op : Op} (h : s.use o t = some (.enter c op)) :
    ∃ rest, s.thr t = some ⟨c, .objectOp o op :: rest⟩ := by
  obtain ⟨⟨c', F⟩, ht, hu⟩ := Option.bind_eq_some_iff.1 h
  rcases F with _ | ⟨fr, rest⟩
  · cases hu
  cases fr with
  | objectOp o' op' =>
    simp only [Running.use, Frame.use, Option.ite_none_right_eq_some, Option.some.injEq,
      Use.enter.injEq] at hu
    obtain ⟨rfl, rfl, rfl⟩ := hu
    exact ⟨rest, ht⟩
  | _ => simp [Running.use, Frame.use] at hu

theorem State.use_guard (h : s.use o t = some .guard) :
    ∃ c fr rest, s.thr t = some ⟨c, fr :: rest⟩ ∧ fr.guards = some o := by
  obtain ⟨⟨c, F⟩, ht, hu⟩ := Option.bind_eq_some_iff.1 h
  rcases F with _ | ⟨fr, rest⟩
  · cases hu
  refine ⟨c, fr, rest, ht, ?_⟩
  cases fr <;> simp [Running.use, Frame.use] at hu <;> exact hu

/-! ## The steps -/

inductive Seen (o : Oid) (s s' : State) : Prop
  | same (huse : s'.use o = s.use o) (hobj : s'.obj o = s.obj o)
      (hd : s'.destroyed o = s.destroyed o)
  | call {t : Thr} {f : Fid} {op : Op} {rest : List Frame}
      (ht : s.thr t = some ⟨.fiber f, .user :: rest⟩)
      (hopen : s.destroyed o = false)
      (hthr : s'.thr = Function.update s.thr t (some ⟨.fiber f, op.entry o :: .user :: rest⟩))
      (hobj : s'.obj o = s.obj o) (hd : s'.destroyed o = s.destroyed o)
  | tested {t : Thr} {c : Ctx} {op : Op} {rest F : List Frame}
      (ht : s.thr t = some ⟨c, .channelTest o op :: rest⟩)
      (hthr : s'.thr = Function.update s.thr t (some ⟨c, F⟩))
      (hF : F = rest ∨ F = .objectOp o op :: rest)
      (hobj : s'.obj o = s.obj o) (hd : s'.destroyed o = s.destroyed o)
  | entered {t : Thr} {f : Fid} {op : Op} {rest : List Frame}
      (ht : s.thr t = some ⟨.fiber f, .objectOp o op :: rest⟩)
      (hl : s.lock (.object o) = some t)
      (hthr : s'.thr = Function.update s.thr t
        (some ⟨.fiber f, ((s.obj o).critical op f).2.next o f rest⟩))
      (hobj : s'.obj o = ((s.obj o).critical op f).1)
      (hd : s'.destroyed o = if op = .destroy then true else s.destroyed o)
  | unlock {t : Thr} {c : Ctx} {rest : List Frame}
      (ht : s.thr t = some ⟨c, .unlock o :: rest⟩)
      (hthr : s'.thr = Function.update s.thr t (some ⟨c, rest⟩))
      (hobj : s'.obj o = s.obj o) (hd : s'.destroyed o = s.destroyed o)

/-- The outermost frame of a call that returns uses nothing. -/
theorem use_rest (h : Shape c (fr :: rest)) (hfr : fr.inner = true) :
    Running.use o ⟨c, rest⟩ = none := by
  rw [(h.inner hfr).1]
  exact use_base c c

theorem Quiet.seen (hi : Inv s) (ht : s.thr t = some ⟨c, F⟩) (hq : Quiet s c F F') :
    Seen o s (s.run t c F') := by
  have hshape := hi.contexts.shape_of ht
  have hkeep : Running.use o ⟨c, F'⟩ = Running.use o ⟨c, F⟩ → Seen o s (s.run t c F') :=
    fun h => .same (State.use_keep ht rfl h) rfl rfl
  cases hq with
  | @object f rest o' op hopen =>
    by_cases he : o' = o
    · subst he
      exact .call ht hopen rfl rfl rfl
    · apply hkeep
      cases op <;> simp [Running.use, Frame.use, Op.entry, he, Frame.guards, Frame.publishes]
  | @channelClosed c rest o' op hc =>
    by_cases he : o' = o
    · subst he
      exact .tested ht rfl (.inl rfl) rfl rfl
    · apply hkeep
      rw [use_rest hshape rfl]
      simp [Running.use, Frame.use, he]
  | @channelOpen c rest o' op hc =>
    by_cases he : o' = o
    · subst he
      exact .tested ht rfl (.inr rfl) rfl rfl
    · apply hkeep
      simp [Running.use, Frame.use, he]
  | spawn | yield | exit | sleep | pairBack | pairMore | pairNext | sleepEarly => exact hkeep rfl
  | sleepLate | listDone | pairDone => exact hkeep (use_rest hshape rfl)

theorem Step.seen (hi : Inv s) (hs : Step s s') (o : Oid) : Seen o s s' := by
  have hkeep : ∀ {t r r'} {s' : State}, s.thr t = some r →
      s'.thr = Function.update s.thr t (some r') → r'.use o = r.use o → s'.obj = s.obj →
      s'.destroyed = s.destroyed → Seen o s s' := by
    intro t r r' s' ht hthr hr hobj hd
    exact .same (State.use_keep ht hthr hr) (congrFun hobj o) (congrFun hd o)
  have hback : ∀ {t c fr rest} {s' : State}, s.thr t = some ⟨c, fr :: rest⟩ → fr.inner = true →
      fr.use o c = none → s'.thr = Function.update s.thr t (some ⟨c, rest⟩) → s'.obj = s.obj →
      s'.destroyed = s.destroyed → Seen o s s' := by
    intro t c fr rest s' ht hfr hu hthr hobj hd
    exact hkeep ht hthr ((use_rest (hi.contexts.shape_of ht) hfr).trans hu.symm) hobj hd
  cases hs with
  | quiet ht hq => exact hq.seen hi ht
  | acquire | timerWait => exact .same rfl rfl rfl
  | start w ht =>
    refine .same ?_ rfl rfl
    funext t
    by_cases he : t = .work w
    · subst he
      rw [State.use_self rfl]
      unfold State.use
      rw [ht]
      rfl
    · exact State.use_other rfl he
  | @availEmpty t c d rest ht hl hq hd | @availPop t c d rest g l ht hl hq =>
    obtain ⟨f, -, -, hd⟩ := ((hi.contexts.shape_of ht).inner rfl).2
    refine hkeep ht rfl ?_ rfl rfl
    cases d with
    | unlock o' => exact absurd rfl (hd o')
    | enqueue | recycle | timerAdd => rfl
  | @copyFiber t f g d rest ht | @copyThread w f d rest ht | @push t f d src rest x n ht hd =>
    refine hkeep ht rfl ?_ rfl rfl
    cases d <;> rfl
  | @switch t f d src rest x n ht hd =>
    obtain ⟨rfl, -, -, hcut⟩ := hi.switch_target ht hd
    refine hkeep ht rfl ?_ rfl rfl
    rw [hcut]
    exact d.frame_use (c := .fiber f) src
  | loopSwitch ht hd =>
    obtain ⟨g, rfl, -, -, hcut⟩ := hi.loopSwitch_target ht hd
    refine hkeep ht rfl ?_ rfl rfl
    rw [hcut]
    rfl
  | @unlock t c o' rest ht =>
    by_cases he : o' = o
    · subst he
      exact .unlock ht rfl rfl rfl
    · exact hback ht rfl (by simp [Frame.use, Frame.guards, he]) rfl rfl rfl
  | @object t f o' op rest ht hl =>
    by_cases he : o' = o
    · subst he
      refine .entered ht hl rfl (Function.update_self _ _ _) ?_
      by_cases hop : op = .destroy <;> simp [hop]
    · refine .same (State.use_keep ht rfl ?_) (Function.update_of_ne (Ne.symm he) _ _) ?_
      · have hrest := use_rest (o := o) (hi.contexts.shape_of ht) rfl
        cases ((s.obj o').critical op f).2 <;>
          simp [Outcome.next, Running.use, Frame.use, Frame.guards, Frame.publishes, he]
        exact hrest
      · by_cases hop : op = .destroy
        · simp [hop, Function.update_of_ne (Ne.symm he)]
        · simp [hop]
  | yieldEmpty ht | enqueueTail ht | signal ht | listTail ht | backIdle ht | recycle ht
  | timerAdd ht => exact hback ht rfl rfl rfl rfl rfl
  | enqueueIdle ht | store ht | signalNext ht | listTake ht | backSteal ht | loopIdle ht
  | loopPop ht | loopWake ht | loopCopy ht | spawnPop ht | spawnEmpty ht | queryMemory ht
  | spawnNew _ ht => exact hkeep ht rfl rfl rfl rfl
  | expire cur ht => exact hkeep ht rfl rfl rfl rfl

end Sched
