import FjxFiber.Sched.HandOut
import FjxFiber.Sched.Model

/-!
# The pointers and the frames of `enqueue_fiber_list`

The scheduler's model runs `enqueue_fiber_list` on lists, as the frames `enqueueList`, `pairUp`,
`store`, `signal` and `giveBack`. Here the call on pointers refines them: every step of it is one
step of the scheduler or none (`Inv.simulates`).
-/

set_option autoImplicit false

namespace Sched.EnqueueList

open Lib

variable {P : Type*} {H : Headers P} {c c' : Config P (Option StackTop)}

section
variable (fid : P → Fid) (wid : P → Wid)

/-- The frames of the call, the nodes of its lists read as fibers and threads. -/
def Config.frames (c : Config P (Option StackTop)) : List Frame :=
  let l := c.hands.fibers.map fid
  let ths := c.hands.threads.map wid
  match c.pc with
  | .init | .loop | .lock | .idleTest | .append | .takeThreads => [.enqueueList l]
  | .first | .walk .. | .read .. | .after .. => [.pairUp l ths]
  | .store ix iy _ _ => [.store (fid ix) (wid iy) (some (l.tail, ths.tail))]
  | .signal _ iy _ _ => [.signal (wid iy) (some (l, ths))]
  | .relock | .queueTest | .putBack | .takeFibers => [.giveBack ths]
  | .ret => []

/-- The thread `t` of the scheduler executes the call, above `rest`. -/
structure Matches (t : Thr) (x : Ctx) (rest : List Frame) (c : Config P (Option StackTop))
    (s : Sched.State) : Prop where
  thr : s.thr t = some ⟨x, c.frames fid wid ++ rest⟩
  queue : s.fiberList = c.hands.queue.map fid
  idle : s.idleThreadList = c.hands.idle.map wid
  lock : c.pc.locked → s.lock .queue = some t
  desc : ∀ f ∈ c.hands.queue ++ c.hands.fibers, s.desc (fid f) = c.stackTop f
  given : ∀ ix iy tix tiy, c.pc = .signal ix iy tix tiy → s.threadFiber (wid iy) = c.stackTop iy

/-- The lock is held by nobody else. -/
def Alone (t : Thr) (c : Config P (Option StackTop)) (s : Sched.State) : Prop :=
  s.lock .queue = if c.pc.locked then some t else none

/-- The scheduler follows the step from `c` to `c'` with one step of its own or none. -/
def Follows (t : Thr) (x : Ctx) (rest : List Frame) (c c' : Config P (Option StackTop))
    (s : Sched.State) : Prop :=
  ∃ s', Relation.ReflGen Step s s' ∧ Matches fid wid t x rest c' s' ∧ (Alone t c s → Alone t c' s')

end

variable {fid : P → Fid} {wid : P → Wid} {t : Thr} {x : Ctx} {rest : List Frame}
  {s : Sched.State}

theorem matches_of {s' : Sched.State} (hthr : s'.thr t = some ⟨x, c'.frames fid wid ++ rest⟩)
    (hq : s'.fiberList = c'.hands.queue.map fid) (hi : s'.idleThreadList = c'.hands.idle.map wid)
    (hl : c'.pc.locked → s'.lock .queue = some t)
    (hd : ∀ f ∈ c'.hands.queue ++ c'.hands.fibers, s'.desc (fid f) = c'.stackTop f)
    (hg : c'.pc.giving = []) : Matches fid wid t x rest c' s' := by
  refine ⟨hthr, hq, hi, hl, hd, ?_⟩
  intro ix iy tix tiy hpc
  rw [hpc] at hg
  cases hg

/-- A step of the call that leaves the contents of the lists as they are. -/
theorem Matches.same {s' : Sched.State} (h : Matches fid wid t x rest c s)
    (hh : c'.hands = c.hands) (ht : c'.stackTop = c.stackTop) (hg : c'.pc.giving = [])
    (hthr : s'.thr t = some ⟨x, c'.frames fid wid ++ rest⟩)
    (hl : c'.pc.locked → s'.lock .queue = some t) (hq : s'.fiberList = s.fiberList)
    (hi : s'.idleThreadList = s.idleThreadList) (hd : s'.desc = s.desc) :
    Matches fid wid t x rest c' s' := by
  refine matches_of hthr ?_ ?_ hl ?_ hg
  · rw [hh, hq]
    exact h.queue
  · rw [hh, hi]
    exact h.idle
  · rw [hh, ht, hd]
    exact h.desc

/-- The frames do not show the step. -/
theorem Matches.silent (h : Matches fid wid t x rest c s) (hh : c'.hands = c.hands)
    (ht : c'.stackTop = c.stackTop) (hg : c'.pc.giving = [])
    (hf : c'.frames fid wid = c.frames fid wid) (hl : c'.pc.locked = c.pc.locked) :
    Follows fid wid t x rest c c' s := by
  refine ⟨s, .refl, h.same hh ht hg (hf ▸ h.thr) (fun hl' => h.lock (hl ▸ hl')) rfl rfl rfl, ?_⟩
  intro ha
  rw [Alone, hl]
  exact ha

/-- The step changes the frames and nothing else. -/
theorem Matches.quiet {fr : Frame} {F : List Frame} (h : Matches fid wid t x rest c s)
    (hfr : c.frames fid wid = [fr]) (hq : Quiet s x (fr :: rest) F)
    (hh : c'.hands = c.hands) (ht : c'.stackTop = c.stackTop) (hg : c'.pc.giving = [])
    (hf : c'.frames fid wid ++ rest = F) (hl : c.pc.locked = false) (hl' : c'.pc.locked = false) :
    Follows fid wid t x rest c c' s := by
  have hthr := h.thr
  rw [hfr] at hthr
  refine ⟨_, .single (.quiet hthr hq), ?_, ?_⟩
  · refine h.same hh ht hg ?_ (fun h1 => ?_) rfl rfl rfl
    · rw [hf]
      exact Function.update_self t _ s.thr
    · rw [hl'] at h1
      exact nomatch h1
  · intro ha
    rw [Alone, hl] at ha
    rw [Alone, hl']
    exact ha

/-- The call takes the lock. -/
theorem Matches.acquire {fr : Frame} {F : List Frame} (h : Matches fid wid t x rest c s)
    (hF : c.frames fid wid = fr :: F) (hw : fr.wants = some .queue)
    (hfree : s.lock .queue = none) (hh : c'.hands = c.hands) (ht : c'.stackTop = c.stackTop)
    (hg : c'.pc.giving = []) (hf : c'.frames fid wid = c.frames fid wid)
    (hl : c'.pc.locked = true) :
    Follows fid wid t x rest c c' s := by
  have hthr := h.thr
  rw [hF] at hthr
  have hlock : Function.update s.lock .queue (some t) .queue = some t := Function.update_self ..
  refine ⟨_, .single (.acquire .queue hthr hw hfree), ?_, fun _ => ?_⟩
  · exact h.same hh ht hg (hf ▸ h.thr) (fun _ => hlock) rfl rfl rfl
  · rw [Alone, hl]
    exact hlock

/-- The lock is given back. -/
theorem alone_release {s' : Sched.State} (hl : c'.pc.locked = false)
    (hs : s'.lock = Function.update s.lock .queue none) : Alone t c' s' := by
  rw [Alone, hl, hs, Function.update_self]
  rfl

variable [DecidableEq P] {O : SpliceOps P}

/-- **The call on pointers refines the frames of the scheduler.** -/
theorem Inv.simulates (h : Inv H c) (hm : c.move O H = some c')
    (hs : Matches fid wid t x rest c s)
    (hfree : c.pc = .lock ∨ c.pc = .relock → s.lock .queue = none) :
    Follows fid wid t x rest c c' s := by
  obtain ⟨⟨pc, l, top⟩, a, log⟩ := c
  have hw : Walked H l a.fibers a.threads pc := h.walked
  have hk : Known a pc := h.known
  cases pc with
  | init | first =>
    obtain rfl := Option.some.inj hm
    exact hs.silent rfl rfl rfl rfl rfl
  | loop =>
    obtain rfl := Option.some.inj hm
    have he : O.empty H.fiberList l = a.fibers.isEmpty := O.empty_ring hw
    show Follows fid wid t x rest _
      ⟨⟨if O.empty H.fiberList l then .ret else .lock, l, top⟩, a, _⟩ s
    rw [he]
    split_ifs with hf
    · refine hs.quiet ?_ .listDone rfl rfl rfl rfl rfl rfl
      rw [Config.frames, List.isEmpty_iff.1 hf]
      rfl
    · exact hs.silent rfl rfl rfl rfl rfl
  | lock =>
    obtain rfl := Option.some.inj hm
    obtain ⟨f, fs, hf⟩ := List.exists_cons_of_ne_nil hk.2
    have hF : Config.frames fid wid ⟨⟨.lock, l, top⟩, a, log⟩ =
        [.enqueueList (fid f :: fs.map fid)] := by simp [Config.frames, hf]
    exact hs.acquire hF rfl (hfree (.inl rfl)) rfl rfl rfl rfl rfl
  | relock =>
    obtain rfl := Option.some.inj hm
    exact hs.acquire rfl rfl (hfree (.inr rfl)) rfl rfl rfl rfl rfl
  | idleTest =>
    obtain rfl := Option.some.inj hm
    show Follows fid wid t x rest _
      ⟨⟨if O.empty H.idleThreadList l then .append else .takeThreads, l, top⟩, a, _⟩ s
    split_ifs
    · exact hs.silent rfl rfl rfl rfl rfl
    · exact hs.silent rfl rfl rfl rfl rfl
  | queueTest =>
    obtain rfl := Option.some.inj hm
    show Follows fid wid t x rest _
      ⟨⟨if O.empty H.schedFiberList l then .putBack else .takeFibers, l, top⟩, a, _⟩ s
    split_ifs
    · exact hs.silent rfl rfl rfl rfl rfl
    · exact hs.silent rfl rfl rfl rfl rfl
  | walk ix iy =>
    obtain rfl := Option.some.inj hm
    show Follows fid wid t x rest _
      ⟨⟨if ix ≠ H.fiberList ∧ iy ≠ H.threadList then .read ix iy else .after ix iy, l, top⟩, a, _⟩ s
    split_ifs
    · exact hs.silent rfl rfl rfl rfl rfl
    · exact hs.silent rfl rfl rfl rfl rfl
  | append =>
    obtain rfl := Option.some.inj hm
    obtain ⟨f, fs, hf⟩ := List.exists_cons_of_ne_nil hk.2.1
    have hthr := hs.thr
    simp only [Config.frames, hf, List.map_cons] at hthr
    refine ⟨_, .single (.listTail hthr (hs.lock rfl) ?_), ?_, fun _ => alone_release rfl rfl⟩
    · rw [hs.idle]
      exact congrArg (List.map wid) hk.2.2
    · refine matches_of (Function.update_self _ _ _) ?_ hs.idle (by simp [Pc.locked]) ?_ rfl
      · simp [Hands.after, hs.queue, hf]
      · simpa [Hands.after, Sched.State.run, Sched.State.release] using hs.desc
  | takeThreads =>
    obtain rfl := Option.some.inj hm
    obtain ⟨f, fs, hf⟩ := List.exists_cons_of_ne_nil hk.2.1
    have hthr := hs.thr
    simp only [Config.frames, hf, List.map_cons] at hthr
    refine ⟨_, .single (.listTake hthr (hs.lock rfl) ?_), ?_, fun _ => alone_release rfl rfl⟩
    · rw [hs.idle]
      exact fun he => hk.2.2 (List.map_eq_nil_iff.1 he)
    · refine matches_of ?_ hs.queue rfl (by simp [Pc.locked]) hs.desc rfl
      show Function.update s.thr t _ t = _
      rw [Function.update_self]
      simp [Config.frames, Hands.after, hs.idle, hf, hk.1]
  | read ix iy =>
    obtain rfl := Option.some.inj hm
    obtain ⟨f, fs, hf⟩ := List.exists_cons_of_ne_nil hk.1
    obtain ⟨w, ths, ht⟩ := List.exists_cons_of_ne_nil hk.2
    obtain ⟨hrf, hrt⟩ := hw
    rw [hf] at hrf
    rw [ht] at hrt
    obtain rfl := hrf.first
    obtain rfl := hrt.first
    refine hs.quiet ?_ (.pairNext (fid ix) (fs.map fid) (wid iy) (ths.map wid)) rfl rfl rfl ?_
      rfl rfl
    · simp [Config.frames, hf, ht]
    · simp [Config.frames, Hands.after, hf, ht]
  | store ix iy tix tiy =>
    obtain rfl := Option.some.inj hm
    obtain ⟨fs, ths, hf, ht, -, -⟩ := hw
    have hiy : iy ∈ H.threadList :: a.threads := (show a.threads = iy :: ths from ht) ▸ by simp
    have hthr := hs.thr
    simp only [Config.frames, hf, ht, List.map_cons, List.tail_cons] at hthr
    refine ⟨_, .single (.store hthr), ⟨?_, hs.queue, hs.idle, by simp [Pc.locked], ?_, ?_⟩, id⟩
    · show Function.update s.thr t _ t = _
      rw [Function.update_self]
      simp [Config.frames, Hands.after, hf, ht]
    · intro f hf'
      have hne : f ≠ iy := by
        rintro rfl
        rcases List.mem_append.1 hf' with hq | hfs
        · exact held_disjoint h.nodup (List.mem_append_left _ (.tail _ hq)) (mem_held_threads hiy)
        · exact threads_apart h.nodup (.tail _ (List.mem_of_mem_erase hfs)) hiy
      show s.desc (fid f) = Function.update top iy (top ix) f
      rw [Function.update_of_ne hne]
      refine hs.desc f (List.mem_append.2 ((List.mem_append.1 hf').imp_right ?_))
      exact List.mem_of_mem_erase
    · intro ix' iy' tix' tiy' hpc
      cases hpc
      show Function.update s.threadFiber (wid iy) (s.desc (fid ix)) (wid iy) =
        Function.update top iy (top ix) iy
      rw [Function.update_self, Function.update_self]
      exact hs.desc ix (List.mem_append_right _ (hf ▸ .head _))
  | signal ix iy tix tiy =>
    obtain rfl := Option.some.inj hm
    refine ⟨_, .single (.signalNext hs.thr),
      matches_of ?_ hs.queue hs.idle (by simp [Pc.locked]) hs.desc rfl, id⟩
    show Function.update s.thr t _ t = _
    rw [Function.update_self]
    rfl
  | after ix iy =>
    have hf : ix = H.fiberList ↔ a.fibers = [] := hw.1.at_header
    have ht : iy = H.threadList ↔ a.threads = [] := hw.2.at_header
    simp only [Config.move, call] at hm
    split_ifs at hm with hix hiy
    · obtain rfl := Option.some.inj hm
      refine hs.quiet ?_ .pairDone rfl rfl rfl rfl rfl rfl
      simp [Config.frames, hf.1 hix, ht.1 hiy]
    · obtain rfl := Option.some.inj hm
      obtain ⟨w, ths, hw⟩ := List.exists_cons_of_ne_nil fun he => hiy (ht.2 he)
      refine hs.quiet ?_ (.pairBack (wid w) (ths.map wid)) rfl rfl rfl ?_ rfl rfl
      · simp [Config.frames, hf.1 hix, hw]
      · simp [Config.frames, Hands.after, hw]
    · obtain rfl := Option.some.inj hm
      obtain ⟨f, fs, hfs⟩ := List.exists_cons_of_ne_nil fun he => hix (hf.2 he)
      have hth : a.threads = [] := hk.resolve_left (hfs ▸ List.cons_ne_nil f fs)
      refine hs.quiet ?_ (.pairMore (fid f) (fs.map fid)) rfl rfl rfl ?_ rfl rfl
      · simp [Config.frames, hfs, hth]
      · simp [Config.frames, Hands.after, hfs]
  | putBack =>
    obtain rfl := Option.some.inj hm
    refine ⟨_, .single (.backIdle hs.thr (hs.lock rfl) ?_), ?_, fun _ => alone_release rfl rfl⟩
    · rw [hs.queue]
      exact congrArg (List.map fid) hk.2.2
    · refine matches_of ?_ hs.queue ?_ (by simp [Pc.locked]) hs.desc rfl
      · show Function.update s.thr t _ t = _
        rw [Function.update_self]
        rfl
      · simp [Hands.after, hs.idle]
  | takeFibers =>
    obtain rfl := Option.some.inj hm
    refine ⟨_, .single (.backSteal hs.thr (hs.lock rfl) ?_), ?_, fun _ => alone_release rfl rfl⟩
    · rw [hs.queue]
      exact fun he => hk.2.2 (List.map_eq_nil_iff.1 he)
    · refine matches_of ?_ rfl hs.idle (by simp [Pc.locked]) ?_ rfl
      · show Function.update s.thr t _ t = _
        rw [Function.update_self]
        simp [Config.frames, Hands.after, hs.queue, hk.1]
      · simpa [Hands.after, Sched.State.run, Sched.State.release, hk.1] using hs.desc
  | ret => simp [Config.move, call] at hm

/-- **A run of the call on pointers is a run of the scheduler.** -/
theorem Inv.simulates_run {n : Nat} (h : Inv H c) (hm : c.moves O H n = some c')
    (hs : Matches fid wid t x rest c s) (ha : Alone t c s) :
    ∃ s', Relation.ReflTransGen Step s s' ∧ Matches fid wid t x rest c' s' ∧ Alone t c' s' := by
  induction n generalizing c s with
  | zero =>
    obtain rfl := Option.some.inj hm
    exact ⟨s, .refl, hs, ha⟩
  | succ n ih =>
    obtain ⟨c₁, h₁, hn⟩ := Option.bind_eq_some_iff.1 hm
    have hfree : c.pc = .lock ∨ c.pc = .relock → s.lock .queue = none := by
      rintro (hpc | hpc)
      · rw [ha, hpc]
        rfl
      · rw [ha, hpc]
        rfl
    obtain ⟨s₁, hs₁, hm₁, ha₁⟩ := h.simulates h₁ hs hfree
    obtain ⟨s', hs', hm', ha'⟩ := ih (h.move h₁) hn hm₁ (ha₁ ha)
    exact ⟨s', hs₁.to_reflTransGen.trans hs', hm', ha'⟩

end Sched.EnqueueList
