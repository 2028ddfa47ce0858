import FjxFiber.Sched.Fibers

/-!
# Locks and work threads

Every step keeps `Locks` and `Threads`. An idle thread passes from `idle_thread_list` to the call
that takes it, from there to its semaphore and back to work, or back to the list; a fiber is stored
for it from the store to its switch.
-/

set_option autoImplicit false

namespace Sched

open Lib Lib.StableQueue

variable {s s' : State} {t t' : Thr} {c c' : Ctx} {F F' : List Frame} {f g : Fid} {w : Wid}

/-! ## Locks -/

theorem Frame.guards_of_plain {fr : Frame} (h : fr.plain = true) : fr.guards = none := by
  cases fr with
  | copy src d => cases d <;> first | rfl | cases h
  | _ => first | rfl | cases h

/-- A thread goes on with frames `F'`: what the others hold is kept, and what it needs for its own
next frame it holds. -/
theorem Locks.keep (h : Locks s) (hthr : s'.thr = Function.update s.thr t (some ⟨c', F'⟩))
    (hother : ∀ t' o, t' ≠ t → s.lock (.object o) = some t' →
      s'.lock (.object o) = some t' ∧ (s'.obj o).waiters = (s.obj o).waiters)
    (hnew : ∀ fr rest o, F' = fr :: rest → fr.guards = some o → s'.lock (.object o) = some t)
    (hlink : ∀ f fr rest o, c' = .fiber f → F' = fr :: rest → fr.publishes = some o →
      f ∈ (s'.obj o).waiters) : Locks s' := by
  refine ⟨fun t' c'' fr rest o ht' ho => ?_, fun t' f fr rest o ht' ho => ?_⟩
  · rcases thr_update hthr ht' with ⟨rfl, hr⟩ | ⟨hne, ht'⟩
    · cases hr
      exact hnew fr rest o rfl ho
    · exact (hother t' o hne (h.held t' c'' fr rest o ht' ho)).1
  · rcases thr_update hthr ht' with ⟨rfl, hr⟩ | ⟨hne, ht'⟩
    · cases hr
      exact hlink f fr rest o rfl rfl ho
    · have hl := h.held t' _ fr rest o ht' (Frame.guards_of_publishes ho)
      rw [(hother t' o hne hl).2]
      exact h.linked t' f fr rest o ht' ho

/-- A step that leaves the objects and their locks alone. -/
theorem Locks.calm (h : Locks s) (hthr : s'.thr = Function.update s.thr t (some ⟨c', F'⟩))
    (hl : ∀ o, s'.lock (.object o) = s.lock (.object o)) (ho : s'.obj = s.obj)
    (hF' : ∀ fr ∈ F'.head?, fr.guards = none) : Locks s' := by
  refine h.keep hthr (fun t' o _ hl' => ⟨(hl o).trans hl', by rw [ho]⟩) (fun fr rest o he hg => ?_)
    fun f fr rest o _ he hp => ?_
  · subst he
    rw [hF' fr rfl] at hg
    cases hg
  · subst he
    have hg := Frame.guards_of_publishes hp
    rw [hF' fr rfl] at hg
    cases hg

/-- The way to a switch, under the lock of an object or not. -/
theorem Locks.approach (h : Locks s) {fr fr' : Frame} {rest rest' : List Frame}
    (ht : s.thr t = some ⟨.fiber f, fr :: rest⟩)
    (hthr : s'.thr = Function.update s.thr t (some ⟨c', fr' :: rest'⟩))
    (hl : s'.lock = s.lock) (ho : s'.obj = s.obj) (hg : fr'.guards = fr.guards)
    (hp : fr'.publishes = fr.publishes ∧ c' = .fiber f ∨ fr'.publishes = none) : Locks s' := by
  refine h.keep hthr (fun t' o _ hl' => ⟨by rw [hl, hl'], by rw [ho]⟩)
    (fun fr₁ rest₁ o he ho' => ?_) fun f₁ fr₁ rest₁ o hf he ho' => ?_
  · cases he
    rw [hl]
    exact h.held t _ fr rest o ht (hg ▸ ho')
  · cases he
    rcases hp with ⟨hp, rfl⟩ | hp
    · cases hf
      rw [ho]
      exact h.linked t f fr rest o ht (hp ▸ ho')
    · rw [hp] at ho'
      cases ho'

/-- The operations of `fiber_switch` carry the lock over to the other stack. -/
theorem Deferred.frame_guards (d : Deferred) (src : Option Fid) :
    d.frame.guards = (Frame.switch d src).guards := by
  cases d <;> rfl

theorem guards_base : ∀ x ∈ [base c].head?, x.guards = none :=
  head_cons (by cases c <;> rfl)

theorem taken_of_holds {out : Outcome} (h : out.holds = true) : out.taken = [] := by
  cases out <;> first | rfl | cases h

theorem holds_eq {out : Outcome} {o o' : Oid} {fr : Frame} {rest : List Frame}
    (he : out.next o f [base c] = fr :: rest) (hg : fr.guards = some o') :
    out.holds = true ∧ o' = o ∧ f ∈ out.links f := by
  cases out with
  | block =>
    cases he
    cases hg
    exact ⟨rfl, rfl, List.mem_singleton_self f⟩
  | ret =>
    cases he
    rw [guards_base _ rfl] at hg
    cases hg
  | wake | transfer | drain =>
    cases he
    cases hg

/-- **Every step keeps `Locks`.** -/
theorem Inv.locks_step (h : Inv s) (hs : Step s s') : Locks s' := by
  have hk := h.locks
  have hpop : ∀ {t c fr rest} {s' : State}, s.thr t = some ⟨c, fr :: rest⟩ →
      s'.thr = Function.update s.thr t (some ⟨c, rest⟩) → fr.inner = true →
      (∀ o, s'.lock (.object o) = s.lock (.object o)) → s'.obj = s.obj → Locks s' :=
    fun {t c fr rest s'} ht hthr hfr hl ho => by
      obtain ⟨rfl, -⟩ := (h.contexts.shape_of ht).inner hfr
      exact hk.calm hthr hl ho guards_base
  have hqueue : ∀ o, Function.update s.lock .queue none (.object o) = s.lock (.object o) :=
    fun o => Function.update_of_ne (by simp) _ _
  have hdisp : ∀ o, Function.update s.lock .disposed none (.object o) = s.lock (.object o) :=
    fun o => Function.update_of_ne (by simp) _ _
  have htimer : ∀ o, Function.update s.lock .timer none (.object o) = s.lock (.object o) :=
    fun o => Function.update_of_ne (by simp) _ _
  cases hs with
  | quiet ht hq =>
    exact hk.calm rfl (fun _ => rfl) rfl fun fr hfr =>
      Frame.guards_of_plain ((hq.plain (h.contexts.shape_of ht)).2 fr hfr)
  | @acquire t c fr rest L ht hw hl =>
    have hne : ∀ {o t'}, s.lock (.object o) = some t' →
        Function.update s.lock L (some t) (.object o) = some t' := fun {o t'} ho => by
      rw [Function.update_of_ne, ho]
      intro he
      rw [he, hl] at ho
      cases ho
    exact ⟨fun t' c' fr' rest' o ht' hg => hne (hk.held t' c' fr' rest' o ht' hg), hk.linked⟩
  | start w ht => exact hk.calm rfl (fun _ => rfl) rfl (head_cons rfl)
  | yieldEmpty ht hl hq => exact hpop ht rfl rfl hqueue rfl
  | @availEmpty t c d rest ht hl hq hd =>
    exact hk.calm rfl hqueue rfl (head_cons (h.avail_publishes ht none))
  | @availPop t c d rest g l ht hl hq =>
    exact hk.calm rfl hqueue rfl (head_cons (h.avail_publishes ht _))
  | @copyFiber t f g d rest ht =>
    exact hk.approach ht rfl rfl rfl (by cases d <;> rfl) (.inl ⟨by cases d <;> rfl, rfl⟩)
  | @copyThread w f d rest ht =>
    exact hk.approach ht rfl rfl rfl (by cases d <;> rfl) (.inl ⟨by cases d <;> rfl, rfl⟩)
  | @push t f d src rest x n ht hd =>
    exact hk.approach ht rfl rfl rfl (by cases d <;> rfl) (.inl ⟨by cases d <;> rfl, rfl⟩)
  | @switch t f d src rest x n ht hd =>
    obtain ⟨rfl, -, rfl, hcut⟩ := h.switch_target ht hd
    rw [hcut]
    exact hk.approach ht rfl rfl rfl (d.frame_guards src) (.inr d.frame_publishes)
  | enqueueIdle ht hl hi => exact hk.calm rfl hqueue rfl (head_cons rfl)
  | enqueueTail ht hl hi => exact hpop ht rfl rfl hqueue rfl
  | store ht => exact hk.calm rfl (fun _ => rfl) rfl (head_cons rfl)
  | signal ht => exact hpop ht rfl rfl (fun _ => rfl) rfl
  | signalNext ht => exact hk.calm rfl (fun _ => rfl) rfl (head_cons rfl)
  | listTail ht hl hi => exact hpop ht rfl rfl hqueue rfl
  | listTake ht hl hi => exact hk.calm rfl hqueue rfl (head_cons rfl)
  | backIdle ht hl hq => exact hpop ht rfl rfl hqueue rfl
  | backSteal ht hl hq => exact hk.calm rfl hqueue rfl (head_cons rfl)
  | loopIdle ht hl hq => exact hk.calm rfl hqueue rfl (head_cons rfl)
  | loopPop ht hl hq => exact hk.calm rfl hqueue rfl (head_cons rfl)
  | loopWake ht hn => exact hk.calm rfl (fun _ => rfl) rfl (head_cons rfl)
  | loopCopy ht => exact hk.calm rfl (fun _ => rfl) rfl (head_cons rfl)
  | loopSwitch ht hd =>
    obtain ⟨g, rfl, -, rfl, hcut⟩ := h.loopSwitch_target ht hd
    rw [hcut]
    exact hk.calm rfl (fun _ => rfl) rfl (head_cons rfl)
  | @unlock t c o rest ht =>
    have ho := hk.held t c _ rest o ht rfl
    obtain ⟨rfl, -⟩ := (h.contexts.shape_of ht).inner rfl
    refine hk.keep rfl (fun t' o' hne hl => ⟨?_, rfl⟩) (fun fr rest o' he hg => ?_)
      fun f fr rest o' _ he hp => ?_
    · have hoo : o' ≠ o := fun he => hne (by rw [he, ho] at hl; exact (Option.some.inj hl).symm)
      exact (Function.update_of_ne (fun he => hoo (Lock.object.inj he)) _ _).trans hl
    · cases he
      rw [guards_base _ rfl] at hg
      cases hg
    · cases he
      rw [base_publishes] at hp
      cases hp
  | recycle ht hl => exact hpop ht rfl rfl hdisp rfl
  | timerAdd ht hl => exact hpop ht rfl rfl htimer rfl
  | timerWait ht hl =>
    exact ⟨fun t' c' fr rest o ht' hg => (htimer o).trans (hk.held t' c' fr rest o ht' hg),
      hk.linked⟩
  | expire cur ht hl hcur => exact hk.calm rfl htimer rfl (head_cons rfl)
  | @object t f o op rest ht hl =>
    obtain ⟨rfl, -⟩ := (h.contexts.shape_of ht).inner rfl
    have hperm := critical_perm op f (s.obj o)
    refine hk.keep rfl (fun t' o' hne hl' => ?_) (fun fr rest o' he hg => ?_)
      fun f' fr rest o' hf he hp => ?_
    · have hoo : o' ≠ o := fun he => hne (by rw [he, hl] at hl'; exact (Option.some.inj hl').symm)
      refine ⟨?_, congrArg Object.waiters (Function.update_of_ne hoo _ _)⟩
      dsimp only
      split
      · exact hl'
      · exact (Function.update_of_ne (fun he => hoo (Lock.object.inj he)) _ _).trans hl'
    · obtain ⟨hh, rfl, -⟩ := holds_eq (c := .fiber f) he hg
      rw [if_pos hh]
      exact hl
    · cases hf
      obtain ⟨hh, rfl, hm⟩ := holds_eq (c := .fiber f) he (Frame.guards_of_publishes hp)
      dsimp only
      rw [Function.update_self]
      refine (List.mem_append.1 (hperm.mem_iff.2 (List.mem_append_left _ hm))).resolve_left ?_
      rw [taken_of_holds hh]
      exact List.not_mem_nil
  | spawnPop ht hl hq => exact hk.calm rfl hdisp rfl (head_cons rfl)
  | spawnEmpty ht hl hq => exact hk.calm rfl hdisp rfl (head_cons rfl)
  | queryMemory ht => exact hk.calm rfl (fun _ => rfl) rfl (head_cons rfl)
  | spawnNew g ht hg => exact hk.calm rfl (fun _ => rfl) rfl (head_cons rfl)

/-! ## The posts of the threads -/

theorem hands_call (fr : Frame) (c : Ctx) : [fr, base c].flatMap Frame.hands = fr.hands := by
  simp

theorem hands_base (c : Ctx) : [base c].flatMap Frame.hands = [] := by
  simp

section
variable (ht : s.thr t = some ⟨c, F⟩) (hthr : s'.thr = Function.update s.thr t (some ⟨c', F'⟩))
include hthr

theorem hands_self : s'.post (.inHands t) = F'.flatMap Frame.hands := by
  simp [State.post, hthr]

theorem hands_other (hne : t' ≠ t) : s'.post (.inHands t') = s.post (.inHands t') := by
  rw [State.post, State.post, hthr, Function.update_of_ne hne]

theorem busy_other (hne : Thr.work w ≠ t) : s'.post (.busy w) = s.post (.busy w) := by
  rw [State.post, State.post, hthr, Function.update_of_ne hne]

include ht

theorem busy_keep (hp : Running.parked ⟨c', F'⟩ = Running.parked ⟨c, F⟩) :
    s'.post (.busy w) = s.post (.busy w) := by
  by_cases he : Thr.work w = t
  · subst he
    simp only [State.post, hthr, ht, Function.update_self, hp]
  · exact busy_other hthr he

theorem started_keep (w : Wid) : s'.thr (.work w) ≠ none ↔ s.thr (.work w) ≠ none := by
  rw [hthr]
  by_cases he : Thr.work w = t
  · subst he
    simp [ht]
  · rw [Function.update_of_ne he]

/-- Idle threads pass between the hands of a call, the idle list and the semaphores. -/
theorem posts_pass (h : Placed s.post fun w => s.thr (.work w) ≠ none)
    (hp : Running.parked ⟨c', F'⟩ = Running.parked ⟨c, F⟩) {q : Post}
    (hq : q = .idle ∨ ∃ w, q = .signalled w)
    (hperm : (F'.flatMap Frame.hands ++ s'.post q).Perm (F.flatMap Frame.hands ++ s.post q))
    (hidle : q ≠ .idle → s'.idleThreadList = s.idleThreadList)
    (hsem : ∀ w, q ≠ .signalled w → s'.sem w = s.sem w) :
    Placed s'.post fun w => s'.thr (.work w) ≠ none := by
  refine h.move (p := .inHands t) (q := q) ?_ ?_ (fun r hr hr' => ?_) (started_keep ht hthr)
  · rintro rfl
    rcases hq with hq | ⟨w, hq⟩ <;> cases hq
  · rw [hands_self hthr]
    simpa [State.post, ht] using hperm
  · cases r with
    | busy w => exact busy_keep ht hthr hp
    | idle => exact hidle (Ne.symm hr')
    | inHands t' => exact hands_other hthr fun he => hr (congrArg _ he)
    | signalled w => simp only [State.post, hsem w (Ne.symm hr')]

/-- A work thread goes idle, or wakes up. -/
theorem posts_park (hw : t = .work w) (h : Placed s.post fun w => s.thr (.work w) ≠ none)
    (hh : F'.flatMap Frame.hands = F.flatMap Frame.hands) {q : Post}
    (hq : q = .idle ∨ ∃ w, q = .signalled w)
    (hperm : (s'.post (.busy w) ++ s'.post q).Perm (s.post (.busy w) ++ s.post q))
    (hidle : q ≠ .idle → s'.idleThreadList = s.idleThreadList)
    (hsem : ∀ w, q ≠ .signalled w → s'.sem w = s.sem w) :
    Placed s'.post fun w => s'.thr (.work w) ≠ none := by
  subst hw
  refine h.move (p := .busy w) (q := q) ?_ hperm (fun r hr hr' => ?_) (started_keep ht hthr)
  · rintro rfl
    rcases hq with hq | ⟨w, hq⟩ <;> cases hq
  · cases r with
    | busy w' => exact busy_other hthr fun he => hr (congrArg _ (Thr.work.inj he))
    | idle => exact hidle (Ne.symm hr')
    | inHands t' =>
      by_cases he : t' = .work w
      · rw [he, hands_self hthr, hh]
        simp [State.post, ht]
      · exact hands_other hthr he
    | signalled w => simp only [State.post, hsem w (Ne.symm hr')]

theorem posts_keep (h : Placed s.post fun w => s.thr (.work w) ≠ none)
    (hp : Running.parked ⟨c', F'⟩ = Running.parked ⟨c, F⟩)
    (hh : F'.flatMap Frame.hands = F.flatMap Frame.hands)
    (hidle : s'.idleThreadList = s.idleThreadList) (hsem : s'.sem = s.sem) :
    Placed s'.post fun w => s'.thr (.work w) ≠ none := by
  refine posts_pass ht hthr h hp (.inl rfl) ?_ (fun _ => hidle) fun w _ => by rw [hsem]
  rw [hh]
  exact .of_eq (congrArg _ hidle)

end

/-! ## What is stored for the threads -/

/-- The thread that a fiber has been stored for, by a call that is about to signal it or by the
loop that is about to switch to it. -/
def Running.carries : Running → Option Wid
  | ⟨_, .signal w _ :: _⟩ => some w
  | ⟨.loop w, .loopSwitch :: _⟩ => some w
  | _ => none

theorem Running.carries_cases {r : Running} (h : r.carries = some w) :
    (∃ c k rest, r = ⟨c, .signal w k :: rest⟩) ∨ ∃ rest, r = ⟨.loop w, .loopSwitch :: rest⟩ := by
  unfold Running.carries at h
  split at h
  · cases h
    exact .inl ⟨_, _, _, rfl⟩
  · cases h
    exact .inr ⟨_, rfl⟩
  · cases h

theorem signals_or_switches (s : State) (w : Wid) :
    s.Signals w ∨ s.Switches w ↔ ∃ t r, s.thr t = some r ∧ r.carries = some w := by
  constructor
  · rintro (⟨t, c, k, rest, ht⟩ | ⟨t, rest, ht⟩)
    · exact ⟨t, _, ht, rfl⟩
    · exact ⟨t, _, ht, rfl⟩
  · rintro ⟨t, r, ht, hr⟩
    rcases Running.carries_cases hr with ⟨c, k, rest, rfl⟩ | ⟨rest, rfl⟩
    · exact .inl ⟨t, c, k, rest, ht⟩
    · exact .inr ⟨t, rest, ht⟩

/-- A thread other than `t` is about to signal `w`, or to switch to what is stored for it. -/
def State.Others (s : State) (t : Thr) (w : Wid) : Prop :=
  ∃ t', t' ≠ t ∧ ∃ r, s.thr t' = some r ∧ r.carries = some w

section
variable {r r' : Running}

theorem carried_iff (hthr : s'.thr = Function.update s.thr t (some r')) (w : Wid) :
    s'.Signals w ∨ 0 < s'.sem w ∨ s'.Switches w ↔
      (r'.carries = some w ∨ 0 < s'.sem w) ∨ s.Others t w := by
  rw [or_left_comm, signals_or_switches, or_comm (a := r'.carries = some w), or_assoc]
  refine or_congr_right ⟨?_, ?_⟩
  · rintro ⟨t', r, ht', hr⟩
    rcases thr_update hthr ht' with ⟨-, rfl⟩ | ⟨hne, ht'⟩
    · exact .inl hr
    · exact .inr ⟨t', hne, r, ht', hr⟩
  · rintro (hr | ⟨t', hne, r, ht', hr⟩)
    · exact ⟨t, r', by rw [hthr, Function.update_self], hr⟩
    · exact ⟨t', r, by rw [hthr, Function.update_of_ne hne, ht'], hr⟩

theorem carried_none (ht : s.thr t = none) (w : Wid) :
    s.Signals w ∨ 0 < s.sem w ∨ s.Switches w ↔ 0 < s.sem w ∨ s.Others t w := by
  rw [or_left_comm, signals_or_switches]
  refine or_congr_right ⟨fun ⟨t', r, ht', hr⟩ => ⟨t', fun he => ?_, r, ht', hr⟩,
    fun ⟨t', _, r, ht', hr⟩ => ⟨t', r, ht', hr⟩⟩
  rw [he, ht] at ht'
  cases ht'

theorem Threads.stored_iff (h : Threads s) (ht : s.thr t = some r) (w : Wid) :
    s.stored w ≠ none ↔ (r.carries = some w ∨ 0 < s.sem w) ∨ s.Others t w :=
  (h.stored w).trans (carried_iff (by rw [← ht, Function.update_eq_self]) w)

end

/-- A frame of a thread that is neither idle nor about to use what is stored for one. -/
def Frame.still : Frame → Bool
  | signal _ _ | loopPark | loopSwitch => false
  | _ => true

theorem Frame.still_of_plain {fr : Frame} (h : fr.plain = true) : fr.still = true := by
  cases fr <;> first | rfl | cases h

theorem still_base : ∀ x ∈ [base c].head?, x.still = true :=
  head_cons (by cases c <;> rfl)

theorem parked_of_still (h : ∀ fr ∈ F.head?, fr.still = true) : Running.parked ⟨c, F⟩ = false := by
  rcases F with _ | ⟨fr, rest⟩
  · rfl
  · have hs := h fr rfl
    cases fr <;> first | rfl | cases hs

theorem carries_of_still (h : ∀ fr ∈ F.head?, fr.still = true) :
    Running.carries ⟨c, F⟩ = none := by
  rcases F with _ | ⟨fr, rest⟩
  · cases c <;> rfl
  · have hs := h fr rfl
    cases fr <;> first | (cases c <;> rfl) | cases hs

section
variable (ht : s.thr t = some ⟨c, F⟩) (hthr : s'.thr = Function.update s.thr t (some ⟨c', F'⟩))
  (hF : ∀ fr ∈ F.head?, fr.still = true) (hF' : ∀ fr ∈ F'.head?, fr.still = true)
include ht hthr hF hF'

theorem Threads.stored_still (h : Threads s) (hsem : s'.sem = s.sem) (hst : s'.stored = s.stored)
    (w : Wid) : s'.stored w ≠ none ↔ s'.Signals w ∨ 0 < s'.sem w ∨ s'.Switches w := by
  rw [carried_iff hthr w, hsem, hst, h.stored_iff ht w, carries_of_still hF, carries_of_still hF']

/-- A step that leaves the idle threads alone. -/
theorem Threads.calm (h : Threads s) (hh : F'.flatMap Frame.hands = F.flatMap Frame.hands)
    (hidle : s'.idleThreadList = s.idleThreadList) (hsem : s'.sem = s.sem)
    (hst : s'.stored = s.stored) (hq : s'.fiberList = [] ∨ s'.idleThreadList = []) :
    Threads s' := by
  refine ⟨?_, h.stored_still ht hthr hF hF' hsem hst, hq⟩
  refine posts_keep ht hthr h.placed ?_ hh hidle hsem
  rw [parked_of_still hF, parked_of_still hF']

end

theorem Quiet.hands (hq : Quiet s c F F') (h : Shape c F) :
    F'.flatMap Frame.hands = F.flatMap Frame.hands := by
  cases hq with
  | object o op => cases op <;> rfl
  | channelClosed | channelOpen | spawn | yield | exit | sleep | sleepLate | sleepEarly | listDone
  | pairDone | pairBack | pairMore | pairNext => rfl

/-- A fiber is stored for `w`, by a call that goes on to signal it or by its loop. -/
theorem Inv.stored_give (h : Inv s) (ht : s.thr t = some ⟨c, F⟩)
    (hthr : s'.thr = Function.update s.thr t (some ⟨c', F'⟩))
    (hF : Running.carries ⟨c, F⟩ = none) (hF' : Running.carries ⟨c', F'⟩ = some w)
    (hsem : s'.sem = s.sem) (hst : s'.stored = Function.update s.stored w (some g)) (w' : Wid) :
    s'.stored w' ≠ none ↔ s'.Signals w' ∨ 0 < s'.sem w' ∨ s'.Switches w' := by
  rw [carried_iff hthr w', hF', hsem, hst]
  by_cases hw : w' = w
  · subst hw
    simp
  · rw [Function.update_of_ne hw, h.threads.stored_iff ht w', hF]
    simp [Ne.symm hw]

/-- What is stored for `w` stays while it is signalled, and while it wakes up. -/
theorem Inv.stored_signal (h : Inv s) (ht : s.thr t = some ⟨c, F⟩)
    (hthr : s'.thr = Function.update s.thr t (some ⟨c', F'⟩))
    (hF : ∀ w', w' ≠ w → Running.carries ⟨c, F⟩ ≠ some w' ∧ Running.carries ⟨c', F'⟩ ≠ some w')
    (hw : Running.carries ⟨c, F⟩ = some w ∨ 0 < s.sem w)
    (hw' : Running.carries ⟨c', F'⟩ = some w ∨ 0 < s'.sem w)
    (hsem : ∀ w', w' ≠ w → s'.sem w' = s.sem w') (hst : s'.stored = s.stored) (w' : Wid) :
    s'.stored w' ≠ none ↔ s'.Signals w' ∨ 0 < s'.sem w' ∨ s'.Switches w' := by
  rw [carried_iff hthr w', hst, h.threads.stored_iff ht w']
  by_cases he : w' = w
  · subst he
    exact iff_of_true (.inl hw) (.inl hw')
  · rw [hsem w' he, or_iff_right (hF w' he).1, or_iff_right (hF w' he).2]

/-- **Every step keeps `Threads`.** -/
theorem Inv.threads_step (h : Inv s) (hs : Step s s') : Threads s' := by
  have hk := h.threads
  have hpop : ∀ {t c fr rest} {s' : State}, s.thr t = some ⟨c, fr :: rest⟩ →
      s'.thr = Function.update s.thr t (some ⟨c, rest⟩) → fr.inner = true → fr.still = true →
      fr.hands = [] → s'.idleThreadList = s.idleThreadList → s'.sem = s.sem →
      s'.stored = s.stored → (s'.fiberList = [] ∨ s'.idleThreadList = []) → Threads s' :=
    fun {t c fr rest s'} ht hthr hfr hst hh => by
      obtain ⟨rfl, -⟩ := (h.contexts.shape_of ht).inner hfr
      exact hk.calm ht hthr (head_cons hst) still_base (by rw [hands_base, hands_call, hh])
  have hnext : ∀ {t c fr fr' rest} {s' : State}, s.thr t = some ⟨c, fr :: rest⟩ →
      s'.thr = Function.update s.thr t (some ⟨c, fr' :: rest⟩) → fr.still = true →
      fr'.still = true → fr'.hands = fr.hands → s'.idleThreadList = s.idleThreadList →
      s'.sem = s.sem → s'.stored = s.stored → (s'.fiberList = [] ∨ s'.idleThreadList = []) →
      Threads s' := fun {t c fr fr' rest s'} ht hthr hst hst' hh =>
    hk.calm ht hthr (head_cons hst) (head_cons hst') (congrArg (· ++ _) hh)
  -- while fibers are runnable, nobody is idle
  have hnone : ∀ {g l}, s.fiberList = g :: l → s.idleThreadList = [] := fun {g l} hq =>
    hk.queue.resolve_left (by simp [hq])
  have hempty : s.idleThreadList ≠ [] → s.fiberList = [] := fun hi => hk.queue.resolve_right hi
  cases hs with
  | quiet ht hq =>
    obtain ⟨hF, hF'⟩ := hq.plain (h.contexts.shape_of ht)
    exact hk.calm ht rfl (fun fr hfr => Frame.still_of_plain (hF fr hfr))
      (fun fr hfr => Frame.still_of_plain (hF' fr hfr)) (hq.hands (h.contexts.shape_of ht)) rfl
      rfl rfl hk.queue
  | acquire L ht hw hl => exact { hk with }
  | start w ht =>
    have hthr : (s.run (.work w) (.loop w) [.loopTop]).thr =
        Function.update s.thr (.work w) (some ⟨.loop w, [.loopTop]⟩) := rfl
    refine ⟨hk.placed.born (p := .busy w) (x := w) (not_not.2 ht) ?_ (fun r hr => ?_) fun a => ?_,
      fun w' => ?_, hk.queue⟩
    · simp [State.post, State.run, ht, Running.parked]
    · cases r with
      | busy w' => exact busy_other hthr fun he => hr (congrArg _ (Thr.work.inj he))
      | inHands t' =>
        by_cases he : t' = .work w
        · rw [he]
          simp [State.post, State.run, ht, Frame.hands]
        · exact hands_other hthr he
      | idle | signalled => rfl
    · by_cases ha : a = w
      · simp [State.run, ha]
      · simp [State.run, ha]
    · have h1 := (hk.stored w').trans (carried_none ht w')
      exact h1.trans ((carried_iff hthr w').trans (by simp [Running.carries, State.run])).symm
  | yieldEmpty ht hl hq => exact hpop ht rfl rfl rfl rfl rfl rfl rfl hk.queue
  | availEmpty ht hl hq hd => exact hnext ht rfl rfl rfl rfl rfl rfl rfl hk.queue
  | availPop ht hl hq => exact hnext ht rfl rfl rfl rfl rfl rfl rfl (.inr (hnone hq))
  | copyFiber ht => exact hnext ht rfl rfl rfl rfl rfl rfl rfl hk.queue
  | copyThread ht => exact hnext ht rfl rfl rfl rfl rfl rfl rfl hk.queue
  | push ht hd => exact hnext ht rfl rfl rfl rfl rfl rfl rfl hk.queue
  | @switch t f d src rest x n ht hd =>
    obtain ⟨rfl, -, rfl, hcut⟩ := h.switch_target ht hd
    rw [hcut]
    refine hk.calm ht rfl (head_cons rfl) (head_cons ?_) ?_ rfl rfl rfl hk.queue
    · cases d <;> rfl
    · rw [hands_call, d.frame_hands]
      rfl
  | enqueueIdle ht hl hi =>
    refine ⟨posts_pass ht rfl hk.placed rfl (.inl rfl) ?_ (fun hne => absurd rfl hne)
      fun w _ => rfl, hk.stored_still ht rfl (head_cons rfl) (head_cons rfl) rfl rfl,
      .inl (hempty (by simp [hi]))⟩
    obtain ⟨rfl, -⟩ := (h.contexts.shape_of ht).inner rfl
    rw [hands_call, hands_call]
    exact .of_eq hi.symm
  | enqueueTail ht hl hi => exact hpop ht rfl rfl rfl rfl rfl rfl rfl (.inr hi)
  | store ht =>
    exact ⟨posts_keep ht rfl hk.placed rfl rfl rfl rfl,
      h.stored_give ht rfl (carries_of_still (head_cons rfl)) rfl rfl rfl, hk.queue⟩
  | @signal t c w rest ht =>
    obtain ⟨rfl, -⟩ := (h.contexts.shape_of ht).inner rfl
    refine ⟨posts_pass ht rfl hk.placed (parked_of_still still_base) (.inr ⟨w, rfl⟩) ?_
      (fun _ => rfl) (fun w' hw' => Function.update_of_ne (fun he => hw' (congrArg _ he.symm)) _ _),
      h.stored_signal ht rfl (fun w' hw' => ⟨?_, ?_⟩) (.inl rfl) (.inr ?_)
        (fun w' hw' => Function.update_of_ne hw' _ _) rfl, hk.queue⟩
    · rw [hands_base, hands_call]
      simp only [State.post, Function.update_self]
      exact .refl _
    · exact fun he => hw' (Option.some.inj he).symm
    · simp [carries_of_still still_base]
    · simp
  | @signalNext t c w l ths rest ht =>
    refine ⟨posts_pass ht rfl hk.placed rfl (.inr ⟨w, rfl⟩) ?_
      (fun _ => rfl) (fun w' hw' => Function.update_of_ne (fun he => hw' (congrArg _ he.symm)) _ _),
      h.stored_signal ht rfl (fun w' hw' => ⟨?_, ?_⟩) (.inl rfl) (.inr ?_)
        (fun w' hw' => Function.update_of_ne hw' _ _) rfl, hk.queue⟩
    · obtain ⟨rfl, -⟩ := (h.contexts.shape_of ht).inner rfl
      rw [hands_call, hands_call]
      simp only [State.post, Function.update_self]
      exact @List.perm_middle _ w ths (List.replicate (s.sem w) w)
    · exact fun he => hw' (Option.some.inj he).symm
    · simp [carries_of_still (F := .pairUp l ths :: rest) (head_cons rfl)]
    · simp
  | listTail ht hl hi => exact hpop ht rfl rfl rfl rfl rfl rfl rfl (.inr hi)
  | listTake ht hl hi =>
    refine ⟨posts_pass ht rfl hk.placed rfl (.inl rfl) ?_ (fun hne => absurd rfl hne)
      fun w _ => rfl, hk.stored_still ht rfl (head_cons rfl) (head_cons rfl) rfl rfl, .inr rfl⟩
    obtain ⟨rfl, -⟩ := (h.contexts.shape_of ht).inner rfl
    rw [hands_call, hands_call]
    exact .of_eq (List.append_nil _)
  | backIdle ht hl hq =>
    obtain ⟨rfl, -⟩ := (h.contexts.shape_of ht).inner rfl
    refine ⟨posts_pass ht rfl hk.placed (parked_of_still still_base) (.inl rfl) ?_
      (fun hne => absurd rfl hne) fun w _ => rfl,
      hk.stored_still ht rfl (head_cons rfl) still_base rfl rfl, .inl hq⟩
    rw [hands_call, hands_base]
    exact .refl _
  | backSteal ht hl hq => exact hnext ht rfl rfl rfl rfl rfl rfl rfl (.inl rfl)
  | @loopIdle t w rest ht hl hq =>
    obtain ⟨hshape, rfl⟩ := h.contexts.shape _ _ _ ht
    obtain rfl := hshape.outer rfl
    refine ⟨posts_park ht rfl rfl hk.placed rfl (.inl rfl) ?_ (fun hne => absurd rfl hne)
      fun w _ => rfl, fun w' => ?_, .inl hq⟩
    · simp [State.post, State.run, State.release, ht, Running.parked]
    · rw [carried_iff rfl w']
      exact hk.stored_iff ht w'
  | loopPop ht hl hq => exact hnext ht rfl rfl rfl rfl rfl rfl rfl (.inr (hnone hq))
  | @loopWake t w n rest ht hn =>
    obtain ⟨hshape, rfl⟩ := h.contexts.shape _ _ _ ht
    obtain rfl := hshape.outer rfl
    refine ⟨posts_park ht rfl rfl hk.placed rfl (.inr ⟨w, rfl⟩) ?_ (fun _ => rfl)
      (fun w' hw' => Function.update_of_ne (fun he => hw' (congrArg _ he.symm)) _ _),
      h.stored_signal ht rfl (fun w' hw' => ⟨?_, ?_⟩) (.inr ?_) (.inl rfl)
        (fun w' hw' => Function.update_of_ne hw' _ _) rfl, hk.queue⟩
    · simp [State.post, State.run, ht, hn, Running.parked, List.replicate_succ]
    · simp [Running.carries]
    · exact fun he => hw' (Option.some.inj he).symm
    · omega
  | @loopCopy t w g rest ht =>
    exact ⟨posts_keep ht rfl hk.placed rfl rfl rfl rfl,
      h.stored_give ht rfl (carries_of_still (head_cons rfl)) rfl rfl rfl, hk.queue⟩
  | @loopSwitch t w x n rest ht hd =>
    obtain ⟨g, rfl, hg, rfl, hcut⟩ := h.loopSwitch_target ht hd
    obtain rfl := Ctx.On.loop (h.contexts.shape _ _ _ ht).2
    rw [hcut]
    have hb : w ∈ s.post (.busy w) := by simp [State.post, ht, Running.parked]
    refine ⟨posts_keep ht rfl hk.placed rfl rfl rfl rfl, fun w' => ?_, hk.queue⟩
    rw [carried_iff rfl w']
    by_cases he : w' = w
    · subst he
      -- nobody else has stored anything for the thread
      have hsem : s.sem w' = 0 := by
        by_contra hne
        cases hk.placed.place_unique hb (q := .signalled w') (List.mem_replicate.2 ⟨hne, rfl⟩)
      have ho : ¬ s.Others (.work w') w' := by
        rintro ⟨t', hne, r, ht', hr⟩
        rcases Running.carries_cases hr with ⟨c, k, rest, rfl⟩ | ⟨rest, rfl⟩
        · have hh : w' ∈ s.post (.inHands t') := by simp [State.post, ht', Frame.hands]
          cases hk.placed.place_unique hb hh
        · exact hne (Ctx.On.loop (h.contexts.shape _ _ _ ht').2)
      refine iff_of_false (fun hn => hn (Function.update_self _ _ _)) ?_
      rintro ((hr | hs) | ho')
      · cases hr
      · exact absurd hs (Nat.not_lt.2 (Nat.le_of_eq hsem))
      · exact ho ho'
    · dsimp only
      rw [Function.update_of_ne he, hk.stored_iff ht w', or_iff_right (b := 0 < s.sem w'),
        or_iff_right (b := _ < _)]
      · exact .rfl
      · simp [Running.carries]
      · exact fun hc => he (Option.some.inj hc).symm
  | unlock ht => exact hpop ht rfl rfl rfl rfl rfl rfl rfl hk.queue
  | recycle ht hl => exact hpop ht rfl rfl rfl rfl rfl rfl rfl hk.queue
  | timerAdd ht hl => exact hpop ht rfl rfl rfl rfl rfl rfl rfl hk.queue
  | timerWait ht hl => exact { hk with }
  | expire cur ht hl hcur =>
    exact hk.calm ht rfl (head_cons rfl) (head_cons rfl) rfl rfl rfl rfl hk.queue
  | @object t f o op rest ht hl =>
    obtain ⟨rfl, -⟩ := (h.contexts.shape_of ht).inner rfl
    cases ((s.obj o).critical op f).2 with
    | ret => exact hpop ht rfl rfl rfl rfl rfl rfl rfl hk.queue
    | block | wake g | transfer g | drain gs =>
      exact hnext ht rfl rfl rfl rfl rfl rfl rfl hk.queue
  | spawnPop ht hl hq => exact hnext ht rfl rfl rfl rfl rfl rfl rfl hk.queue
  | spawnEmpty ht hl hq => exact hnext ht rfl rfl rfl rfl rfl rfl rfl hk.queue
  | queryMemory ht => exact hnext ht rfl rfl rfl rfl rfl rfl rfl hk.queue
  | spawnNew g ht hg => exact hnext ht rfl rfl rfl rfl rfl rfl rfl hk.queue

end Sched
