import FjxFiber.Sched.Contexts

/-!
# Conservation of fibers

Every step keeps `Placed s.place s.Live`: a fiber passes between the thread that takes the step and
one list (`Passes.placed`), or it is born or taken apart at that thread.
-/

set_option autoImplicit false

namespace Sched

open Lib Lib.StableQueue

variable {s s' : State} {t t' : Thr} {c c' : Ctx} {F F' : List Frame} {f g : Fid} {w : Wid}

/-! ## The sections of the objects -/

/-- The fibers that a section takes from the object. -/
def Outcome.taken : Outcome → List Fid
  | wake g | transfer g => [g]
  | drain gs => gs
  | _ => []

/-- The caller, when a section links it. -/
def Outcome.links (f : Fid) : Outcome → List Fid
  | block => [f]
  | _ => []

theorem mutex_perm (op : Op) (f : Fid) (m : Sync.FiberMutex Fid) :
    (((Object.mutex m).critical op f).2.taken ++ ((Object.mutex m).critical op f).1.waiters).Perm
      (((Object.mutex m).critical op f).2.links f ++ m.fiberList) := by
  cases op with
  | lock =>
    simp only [Object.critical, Sync.FiberMutex.lockImpl]
    split
    · exact .refl _
    · exact List.perm_append_singleton f m.fiberList
  | unlock =>
    rcases m with ⟨_ | ⟨g, rest⟩, hold⟩ <;> exact .refl _
  | destroy =>
    simp only [Object.critical, Sync.FiberMutex.destroyImpl]
    split
    · exact .of_eq (List.append_nil _)
    · exact .refl _
  | wait | signal | send | receive | close => exact .refl _

theorem semaphore_perm (op : Op) (f : Fid) (s : Sync.FiberSemaphore Fid) :
    (((Object.semaphore s).critical op f).2.taken ++
        ((Object.semaphore s).critical op f).1.waiters).Perm
      (((Object.semaphore s).critical op f).2.links f ++ s.fiberList) := by
  cases op with
  | wait =>
    simp only [Object.critical, Sync.FiberSemaphore.waitImpl]
    split
    · exact .refl _
    · exact List.perm_append_singleton f s.fiberList
  | signal =>
    rcases s with ⟨_ | ⟨g, rest⟩, count, bound⟩
    · simp only [Object.critical, Sync.FiberSemaphore.signalImpl]
      split <;> exact .refl _
    · exact .refl _
  | destroy =>
    simp only [Object.critical, Sync.FiberSemaphore.destroyImpl]
    split
    · exact .of_eq (List.append_nil _)
    · exact .refl _
  | lock | unlock | send | receive | close => exact .refl _

theorem channel_perm (op : Op) (f : Fid) (ch : Channel.FiberChannel Fid) :
    (((Object.channel ch).critical op f).2.taken ++
        ((Object.channel ch).critical op f).1.waiters).Perm
      (((Object.channel ch).critical op f).2.links f ++ (ch.ritemList ++ ch.witemList)) := by
  cases op with
  | send =>
    rcases ch with ⟨_ | ⟨it, rest⟩, witems, size, _ | _⟩
    · exact List.perm_append_singleton f witems
    all_goals exact .refl _
  | receive =>
    rcases ch with ⟨ritems, _ | ⟨it, rest⟩, size, _ | _⟩
    · exact (List.perm_append_singleton f ritems).append_right []
    · exact .refl _
    all_goals exact (@List.perm_middle _ it ritems rest).symm
  | close =>
    simp only [Object.critical, Channel.FiberChannel.closeImpl]
    split <;> exact .refl _
  | destroy =>
    simp only [Object.critical, Channel.FiberChannel.destroyImpl]
    split
    · exact .refl _
    · rename_i hr
      split
      · rw [not_not.1 hr]
        exact .of_eq (List.append_nil _)
      · exact .refl _
  | lock | unlock | wait | signal => exact .refl _

/-- **A section takes waiters from its object and links its caller**, and leaves the others. -/
theorem critical_perm (op : Op) (f : Fid) (o : Object) :
    ((o.critical op f).2.taken ++ (o.critical op f).1.waiters).Perm
      ((o.critical op f).2.links f ++ o.waiters) := by
  rcases o with m | s | ch
  · exact mutex_perm op f m
  · exact semaphore_perm op f s
  · exact channel_perm op f ch

/-! ## A step of a thread -/

section
variable (hthr : s'.thr = Function.update s.thr t (some ⟨c', F'⟩))
include hthr

theorem place_self : s'.place (.inl t) = tokens c' F' :=
  place_thr (by rw [hthr, Function.update_self])

theorem place_other (hne : t' ≠ t) : s'.place (.inl t') = s.place (.inl t') := by
  rw [State.place, State.place, hthr, Function.update_of_ne hne]

variable (ht : s.thr t = some ⟨c, F⟩)
include ht

/-- The thread keeps its fibers. -/
theorem placed_keep (h : Placed s.place s.Live) (hp : (tokens c' F').Perm (tokens c F))
    (hl : ∀ p, s'.linked p = s.linked p) (hlive : ∀ f, s'.Live f ↔ s.Live f) :
    Placed s'.place s'.Live := by
  refine h.shift (fun r => ?_) hlive
  rcases r with t' | p
  · by_cases he : t' = t
    · subst he
      rw [place_self hthr, place_thr ht]
      exact hp
    · rw [place_other hthr he]
  · exact .of_eq (hl p)

/-- Fibers pass between the thread and a list. -/
theorem placed_pass (h : Placed s.place s.Live) (q : Home)
    (hp : (tokens c' F' ++ s'.linked q).Perm (tokens c F ++ s.linked q))
    (hl : ∀ p, p ≠ q → s'.linked p = s.linked p) (hlive : ∀ f, s'.Live f ↔ s.Live f) :
    Placed s'.place s'.Live := by
  refine h.move (p := .inl t) (q := .inr q) Sum.inl_ne_inr ?_ (fun r hr hr' => ?_) hlive
  · rw [place_self hthr, place_thr ht]
    exact hp
  · rcases r with t' | p
    · exact place_other hthr fun he => hr (congrArg _ he)
    · exact hl p fun he => hr' (congrArg _ he)

end

theorem Quiet.tokens (hq : Quiet s c F F') (h : Shape c F) : tokens c F' = tokens c F := by
  cases hq with
  | object o op =>
    obtain rfl := h.outer rfl
    rw [show Frame.user = base (.fiber _) from rfl, tokens_base]
    exact (tokens_call (by cases op <;> rfl)).trans (by cases op <;> simp [Op.entry, Frame.held])
  | spawn | yield | exit | sleep =>
    obtain rfl := h.outer rfl
    rfl
  | channelClosed | sleepLate | listDone | pairDone =>
    obtain ⟨rfl, -⟩ := h.inner rfl
    rw [tokens_base, tokens_call rfl]
    exact (List.append_nil _).symm
  | channelOpen | sleepEarly | pairBack | pairMore | pairNext =>
    obtain ⟨rfl, -⟩ := h.inner rfl
    rw [tokens_call rfl, tokens_call rfl]
    rfl

/-- A frame on the way to a switch, whatever it does next. -/
theorem tokens_aim (c : Ctx) (d : Deferred) (src : Option Fid) (rest : List Frame) :
    tokens c (.push d src :: rest) = tokens c (.copy src d :: rest) ∧
      tokens c (.switch d src :: rest) = tokens c (.copy src d :: rest) := by
  cases c <;> cases d <;> exact ⟨rfl, rfl⟩

/-- The fiber that suspends itself passes to the deferred operation, which runs on the stack of the
context that is resumed. -/
theorem tokens_switch {d : Deferred} (hd : d.By f) (t : Thr) (src : Option Fid) :
    (tokens (target t src) [d.frame, base (target t src)]).Perm
      (tokens (.fiber f) [.switch d src, .user]) := by
  have hown : (target t src).own = src.toList := by
    rcases src with _ | g
    · cases t <;> rfl
    · rfl
  rw [tokens_call d.frame_publishes, hown]
  cases d with
  | unlock o =>
    rw [tokens_publish (by simp [Frame.publishes])]
    exact .of_eq (List.append_nil _)
  | enqueue g | recycle g | timerAdd g tp =>
    obtain rfl := hd
    change List.Perm _ (tokens (.fiber g) [_, base (.fiber g)])
    rw [tokens_call rfl]
    exact List.perm_append_comm

/-- What the caller of an operation has in hand after the section. -/
theorem tokens_outcome (o : Oid) (f : Fid) {out : Outcome} {ws ws' : List Fid}
    (hp : (out.taken ++ ws').Perm (out.links f ++ ws)) :
    (tokens (.fiber f) (out.next o f [.user]) ++ ws').Perm
      (tokens (.fiber f) [.objectOp o .lock, .user] ++ ws) := by
  cases out with
  | block => exact hp
  | ret | wake g | transfer g => exact hp.cons f
  | drain gs =>
    change ((f :: (gs ++ [])) ++ ws').Perm _
    rw [List.append_nil]
    exact hp.cons f

section
variable {fr fr' : Frame} {rest : List Frame} (h : Inv s) (ht : s.thr t = some ⟨c, fr :: rest⟩)
include h ht

/-- A call goes on, and fibers pass between its hands and the list `q`. -/
theorem Inv.fibers_next (hthr : s'.thr = Function.update s.thr t (some ⟨c, fr' :: rest⟩))
    (hfr : fr.inner = true) (hp : fr.publishes = none) (hp' : fr'.publishes = none) (q : Home)
    (hq : (fr'.held ++ s'.linked q).Perm (fr.held ++ s.linked q))
    (hl : ∀ p, p ≠ q → s'.linked p = s.linked p) (hlive : ∀ f, s'.Live f ↔ s.Live f) :
    Placed s'.place s'.Live := by
  obtain ⟨rfl, -⟩ := (h.contexts.shape_of ht).inner hfr
  refine placed_pass hthr ht h.fibers q ?_ hl hlive
  rw [tokens_call hp, tokens_call hp', List.append_assoc, List.append_assoc]
  exact hq.append_left _

/-- A call returns, and leaves what it has in the list `q`. -/
theorem Inv.fibers_pop (hthr : s'.thr = Function.update s.thr t (some ⟨c, rest⟩))
    (hfr : fr.inner = true) (hp : fr.publishes = none) (q : Home)
    (hq : (s'.linked q).Perm (fr.held ++ s.linked q))
    (hl : ∀ p, p ≠ q → s'.linked p = s.linked p) (hlive : ∀ f, s'.Live f ↔ s.Live f) :
    Placed s'.place s'.Live := by
  obtain ⟨rfl, -⟩ := (h.contexts.shape_of ht).inner hfr
  refine placed_pass hthr ht h.fibers q ?_ hl hlive
  rw [tokens_call hp, tokens_base, List.append_assoc]
  exact hq.append_left _

end

/-- What `get_available_fiber` is followed by is not an unlock. -/
theorem Inv.avail_publishes (h : Inv s) {d : Deferred} {rest : List Frame}
    (ht : s.thr t = some ⟨c, .getAvailable d :: rest⟩) (src : Option Fid) :
    (Frame.copy src d).publishes = none := by
  obtain ⟨-, f, -, -, hd⟩ := (h.contexts.shape_of ht).inner rfl
  cases d with
  | unlock o => exact absurd rfl (hd o)
  | enqueue | recycle | timerAdd => rfl

/-- **Every step keeps the fibers**: each is in one place, once. -/
theorem Inv.fibers_step (h : Inv s) (hs : Step s s') : Placed s'.place s'.Live := by
  have hf := h.fibers
  have hsame : ∀ f, s.Live f ↔ s.Live f := fun _ => Iff.rfl
  have hgive : ∀ {g w p}, p ≠ .assigned w → (s.give g w).linked p = s.linked p :=
    fun {g w p} hp => by
      cases p with
      | assigned w' =>
        have hne : w' ≠ w := fun he => hp (congrArg _ he)
        exact congrArg Option.toList (Function.update_of_ne hne _ _)
      | queue | wait | timer | disposed => rfl
  cases hs with
  | quiet ht hq =>
    exact placed_keep rfl ht hf (.of_eq (hq.tokens (h.contexts.shape_of ht)))
      (fun p => by cases p <;> rfl) hsame
  | acquire L ht hw hl => exact hf
  | start w ht =>
    have hthr : (s.run (.work w) (.loop w) [.loopTop]).thr =
        Function.update s.thr (.work w) (some ⟨.loop w, [.loopTop]⟩) := rfl
    refine hf.shift (fun r => ?_) hsame
    rcases r with t' | p
    · by_cases he : t' = .work w
      · subst he
        refine .of_eq ((place_self hthr).trans ?_)
        simp [State.place, ht, tokens_loop, Frame.held]
      · exact .of_eq (place_other hthr he)
    · cases p <;> exact .refl _
  | yieldEmpty ht hl hq =>
    obtain ⟨rfl, -⟩ := (h.contexts.shape_of ht).inner rfl
    exact placed_keep rfl ht hf (.refl _) (fun p => by cases p <;> rfl) hsame
  | @availEmpty t c d rest ht hl hq hd =>
    refine h.fibers_next ht rfl rfl rfl (h.avail_publishes ht none) .queue (.refl _)
      (fun p _ => ?_) hsame
    cases p <;> rfl
  | @availPop t c d rest g l ht hl hq =>
    refine h.fibers_next ht rfl rfl rfl (h.avail_publishes ht _) .queue ?_ (fun p hp => ?_) hsame
    · exact .of_eq hq.symm
    · cases p <;> first | rfl | exact absurd rfl hp
  | @copyFiber t f g d rest ht =>
    refine placed_keep rfl ht hf ?_ (fun p => by cases p <;> rfl) hsame
    exact .of_eq (tokens_aim _ d (some g) rest).1
  | @copyThread w f d rest ht =>
    refine placed_keep rfl ht hf ?_ (fun p => by cases p <;> rfl) hsame
    exact .of_eq (tokens_aim _ d none rest).1
  | @push t f d src rest x n ht hd =>
    refine placed_keep rfl ht hf ?_ (fun p => by cases p <;> rfl) hsame
    obtain ⟨h1, h2⟩ := tokens_aim (.fiber f) d src rest
    exact .of_eq (h2.trans h1.symm)
  | @switch t f d src rest x n ht hd =>
    obtain ⟨rfl, -, rfl, hcut⟩ := h.switch_target ht hd
    obtain ⟨-, f', hf', hby⟩ := (h.contexts.shape_of ht).inner rfl
    cases hf'
    rw [hcut]
    exact placed_keep rfl ht hf (tokens_switch hby t src) (fun p => by cases p <;> rfl) hsame
  | enqueueIdle ht hl hi =>
    refine h.fibers_next ht rfl rfl rfl rfl .queue (.refl _) (fun p _ => ?_) hsame
    cases p <;> rfl
  | enqueueTail ht hl hi =>
    refine h.fibers_pop ht rfl rfl rfl .queue ?_ (fun p hp => ?_) hsame
    · exact List.perm_append_singleton _ _
    · cases p <;> first | rfl | exact absurd rfl hp
  | @store t c g w k rest ht =>
    obtain ⟨rest', hr⟩ := h.parked_of_hands (w := w) ht (by simp [Frame.hands])
    have hw : s.stored w = none := by
      refine h.unstored (p := .inHands t) (by simp [State.post, ht, Frame.hands])
        (fun he => by cases he) (fun t' c' k' rest' he ht' => ?_) fun rest' he => ?_
      · cases he
        rw [ht] at ht'
        cases ht'
      · rw [hr] at he
        cases he
    refine h.fibers_next ht rfl rfl rfl rfl (.assigned w) ?_ (fun p hp => ?_) hsame
    · simp only [State.linked, State.give, Function.update_self, hw]
      exact (List.perm_append_singleton _ _).trans (.of_eq (List.append_nil _).symm)
    · exact hgive hp
  | signal ht =>
    refine h.fibers_pop ht rfl rfl rfl .queue (.refl _) (fun p _ => ?_) hsame
    cases p <;> rfl
  | signalNext ht =>
    refine h.fibers_next ht rfl rfl rfl rfl .queue (.refl _) (fun p _ => ?_) hsame
    cases p <;> rfl
  | listTail ht hl hi =>
    refine h.fibers_pop ht rfl rfl rfl .queue ?_ (fun p hp => ?_) hsame
    · exact List.perm_append_comm
    · cases p <;> first | rfl | exact absurd rfl hp
  | listTake ht hl hi =>
    refine h.fibers_next ht rfl rfl rfl rfl .queue (.refl _) (fun p _ => ?_) hsame
    cases p <;> rfl
  | backIdle ht hl hq =>
    refine h.fibers_pop ht rfl rfl rfl .queue (.refl _) (fun p _ => ?_) hsame
    cases p <;> rfl
  | backSteal ht hl hq =>
    refine h.fibers_next ht rfl rfl rfl rfl .queue ?_ (fun p hp => ?_) hsame
    · exact .of_eq (List.append_nil _)
    · cases p <;> first | rfl | exact absurd rfl hp
  | @loopIdle t w rest ht hl hq =>
    obtain rfl := (h.contexts.shape_of ht).outer rfl
    exact placed_keep rfl ht hf (.refl _) (fun p => by cases p <;> rfl) hsame
  | @loopPop t w g l rest ht hl hq =>
    obtain rfl := (h.contexts.shape_of ht).outer rfl
    refine placed_pass rfl ht hf .queue ?_ (fun p hp => ?_) hsame
    · exact .of_eq hq.symm
    · cases p <;> first | rfl | exact absurd rfl hp
  | @loopWake t w n rest ht hn =>
    obtain rfl := (h.contexts.shape_of ht).outer rfl
    exact placed_keep rfl ht hf (.refl _) (fun p => by cases p <;> rfl) hsame
  | @loopCopy t w g rest ht =>
    obtain ⟨hshape, rfl⟩ := h.contexts.shape _ _ _ ht
    obtain rfl := hshape.outer rfl
    have hw : s.stored w = none := by
      refine h.unstored (p := .busy w) (by simp [State.post, ht, Running.parked])
        (fun he => by cases he) (fun t' c' k' rest' he => by cases he) fun rest' he => ?_
      rw [ht] at he
      cases he
    refine placed_pass rfl ht hf (.assigned w) ?_ (fun p hp => ?_) hsame
    · simp only [State.linked, State.give, Function.update_self, hw]
      exact .refl [g]
    · exact hgive hp
  | @loopSwitch t w x n rest ht hd =>
    obtain ⟨g, rfl, hg, rfl, hcut⟩ := h.loopSwitch_target ht hd
    rw [hcut]
    refine placed_pass rfl ht hf (.assigned w) ?_ (fun p hp => ?_) hsame
    · simp only [State.linked, Function.update_self, hg]
      exact .refl [g]
    · cases p with
      | assigned w' =>
        have hne : w' ≠ w := fun he => hp (congrArg _ he)
        exact congrArg Option.toList (Function.update_of_ne hne _ _)
      | queue | wait | timer | disposed => rfl
  | unlock ht =>
    refine h.fibers_pop ht rfl rfl rfl .queue (.refl _) (fun p _ => ?_) hsame
    cases p <;> rfl
  | recycle ht hl =>
    refine h.fibers_pop ht rfl rfl rfl .disposed ?_ (fun p hp => ?_) hsame
    · exact List.perm_append_singleton _ _
    · cases p <;> first | rfl | exact absurd rfl hp
  | timerAdd ht hl =>
    refine h.fibers_pop ht rfl rfl rfl .timer ?_ (fun p hp => ?_) hsame
    · exact (insertStable_perm _ _).map Entry.val
    · cases p <;> first | rfl | exact absurd rfl hp
  | timerWait ht hl => exact hf
  | @expire t rest cur ht hl hcur =>
    obtain rfl := (h.contexts.shape_of ht).outer rfl
    refine placed_pass rfl ht hf .timer ?_ (fun p hp => ?_) hsame
    · rw [show [Frame.enqueueList _, .timerTop] = [_, base .timer] from rfl, tokens_call rfl]
      exact (List.map_append ▸ (upTo_after_perm cur s.timeList).map Entry.val)
    · cases p <;> first | rfl | exact absurd rfl hp
  | @object t f o op rest ht hl =>
    obtain ⟨rfl, -⟩ := (h.contexts.shape_of ht).inner rfl
    refine placed_pass rfl ht hf (.wait o) ?_ (fun p hp => ?_) hsame
    · simp only [State.linked, Function.update_self]
      exact tokens_outcome o f (critical_perm op f (s.obj o))
    · cases p with
      | wait o' =>
        have hne : o' ≠ o := fun he => hp (congrArg _ he)
        exact congrArg Object.waiters (Function.update_of_ne hne _ _)
      | queue | timer | disposed | assigned => rfl
  | spawnPop ht hl hq =>
    refine h.fibers_next ht rfl rfl rfl rfl .disposed ?_ (fun p hp => ?_) hsame
    · exact .of_eq hq.symm
    · cases p <;> first | rfl | exact absurd rfl hp
  | spawnEmpty ht hl hq =>
    refine h.fibers_next ht rfl rfl rfl rfl .queue (.refl _) (fun p _ => ?_) hsame
    cases p <;> rfl
  | @queryMemory t c f rest ht =>
    obtain ⟨rfl, -⟩ := (h.contexts.shape_of ht).inner rfl
    refine hf.gone (p := .inl t) (x := f) ?_ (fun r hr => ?_) fun a => ?_
    · rw [place_thr ht, place_self rfl, tokens_call rfl, tokens_call rfl,
        show Frame.spawnNew.held = [] from rfl, List.append_nil]
      exact List.perm_append_singleton f _
    · rcases r with t' | p
      · exact place_other rfl fun he => hr (congrArg _ he)
      · cases p <;> rfl
    · by_cases ha : a = f
      · simp [State.Live, State.run, ha]
      · simp [State.Live, State.run, ha]
  | @spawnNew t c rest g ht hg =>
    obtain ⟨rfl, -⟩ := (h.contexts.shape_of ht).inner rfl
    have hr : s.recycled g = false := by
      by_contra hr
      rw [h.recycled g (by simpa using hr)] at hg
      cases hg
    refine hf.born (p := .inl t) (x := g) (fun hl => ?_) ?_ (fun r hr => ?_) fun a => ?_
    · rw [hl.1] at hg
      cases hg
    · rw [place_thr ht, place_self rfl, tokens_call rfl, tokens_call rfl,
        show Frame.spawnNew.held = [] from rfl, List.append_nil]
      exact List.perm_append_singleton g _
    · rcases r with t' | p
      · exact place_other rfl fun he => hr (congrArg _ he)
      · cases p <;> rfl
    · by_cases ha : a = g
      · simp [State.Live, State.run, State.setDesc, ha, hr]
      · simp [State.Live, State.run, State.setDesc, ha]

end Sched
