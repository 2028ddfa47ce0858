import FjxFiber.Spin.QspinlockInv

/-!
# Every access of `fjx_qspinlock`

There is one lemma for every access of `code`: it keeps the invariant. `Inv.step` puts them
together, and `qspinlock_correct` says what holds of every run.
-/

set_option autoImplicit false

namespace Spin.Qspinlock

open Lib Lib.StackNodes

variable {ι A : Type*} [DecidableEq ι] [DecidableEq A] {s s' : State ι A} {q q' : List (Ref ι A)}
  {w w' : Option (Ref ι A)} {t : ι} {p : Pc ι A} {mm : Ref ι A}

/-! ## Waiting -/

theorem Inv.awaitNode (h : Inv s q w) (ht : s.pc t = .awaitNode mm)
    (hm : qspinlock.move s t = some s') : Inv s' q w := by
  have hv := qspinlock.moved rfl ht rfl hm
  have hlock : s'.lock = s.lock := hv.lock
  have hmem : s'.mem = s.mem := hv.mem.trans (Function.update_eq_self _ _)
  have hk := h.known t
  rw [ht] at hk
  have hpc := hv.pc
  dsimp only at hpc
  split at hpc
  case isTrue hne =>
    have hactive : Active s (s.pc t) := by rw [ht]; exact hne
    refine h.stay (.access hm) hpc hmem hlock ⟨hv.exchanged, hv.entered⟩ ?_ (.inl hactive) (hk hne)
      fun _ => hactive
    rw [ht]
    exact ⟨rfl, rfl, rfl, rfl⟩
  case isFalse hzero =>
    have hpassive : ¬ (s'.mem mm.addr).locked ≠ 0 := by
      rw [hmem]
      exact hzero
    refine h.stay (.access hm) hpc hmem hlock ⟨hv.exchanged, hv.entered⟩ ?_
      (.inr fun y hy => by rw [← hy, ht]) (fun hne => absurd hne hpassive)
      fun ha => absurd ha hpassive
    rw [ht]
    exact ⟨rfl, rfl, rfl, rfl⟩

theorem Inv.awaitLock (h : Inv s q w) (ht : s.pc t = .awaitLock mm)
    (hm : qspinlock.move s t = some s') : Inv s' q w := by
  have hv := qspinlock.moved rfl ht rfl hm
  have hlock : s'.lock = s.lock := hv.lock
  have hactive : Active s (s.pc t) := by rw [ht]; trivial
  have hk := h.known t
  rw [ht] at hk
  refine h.stay (.access hm) hv.pc hv.mem hlock ⟨hv.exchanged, hv.entered⟩ ?_ (.inl hactive) ?_
    fun _ => hactive
  · rw [ht]
    dsimp only
    split <;> exact ⟨rfl, rfl, rfl, rfl⟩
  · dsimp only
    split
    case isTrue hfree => exact ⟨hk, by rw [hlock]; exact hfree⟩
    case isFalse => exact hk

/-! ## With the flag -/

/-- Nobody has the lock before the head of the queue takes it. -/
theorem Inv.acquired_none (h : Inv s q w) (hactive : Active s (s.pc t))
    (ht : (s.pc t).acquired = none) : w = none := by
  cases hw : w with
  | none => rfl
  | some r =>
    have hr := (h.acquired r).1 hw
    rw [h.one _ _ (active_of_acquired hr) hactive, ht] at hr
    cases hr

/-- The call that has the lock and is in the queue is at the head. -/
theorem Inv.acquired_head (h : Inv s q w) {r : Ref ι A} (hw : w = some r) : q.head? = some r := by
  have hr := (h.acquired r).1 hw
  have hk := h.known r.thread
  cases hp : s.pc r.thread with
  | loadNext x | compareExchange x | awaitNext x =>
    rw [hp] at hr hk
    rw [← Option.some.inj hr]
    exact hk
  | _ =>
    rw [hp] at hr
    cases hr

theorem Inv.setLocked (h : Inv s q w) (ht : s.pc t = .setLocked mm)
    (hm : qspinlock.move s t = some s') : Inv s' q (some mm) := by
  have hv := qspinlock.moved rfl ht rfl hm
  have hlock : s'.lock = { s.lock with locked := 1 } := hv.lock
  have hmem : s'.mem = s.mem := hv.mem
  have hpc : s'.pc = Function.update s.pc t (.loadNext mm) := hv.pc
  have hactive : Active s (s.pc t) := by rw [ht]; trivial
  have hthread := h.queue.thread_eq (L := layout) (congrArg Pc.queued ht)
  have hw : w = none := h.acquired_none hactive (by rw [ht]; rfl)
  have hk := h.known t
  rw [ht] at hk
  refine h.goto hpc ?_ (h.flag.set hpc hk.2 (by rw [hlock]) trivial) ?_ ?_ hk.1 ?_
    fun _ => .inl hactive
  · exact h.queue.stay (h.queue.live.step lawful (.access hm)) hpc (by rw [hlock]; rfl)
      (fun x _ => layout.next_eq hmem x) (by rw [ht]; rfl) (by rw [ht]; rfl)
  · intro r
    rw [hpc]
    by_cases hr : r.thread = t
    · rw [hr, Function.update_self]
      exact Iff.rfl
    · rw [Function.update_of_ne hr]
      refine iff_of_false ?_ fun ha => hr (h.one _ _ (active_of_acquired ha) hactive)
      intro he
      rw [← Option.some.inj he] at hr
      exact hr hthread
  · obtain ⟨e, he, hx⟩ := h.fifo
    have hexchanged : s'.exchanged = s.exchanged := hv.exchanged
    have hentered : s'.entered = s.entered ++ [mm] := hv.entered
    refine ⟨e, ?_, hexchanged.trans hx⟩
    rw [hentered, he, hw]
    simp
  · intro u hu
    exact .of_mem hmem (fun _ _ hr => hr) fun hua => absurd (h.one u t hua hactive) hu

/-- `fjx_qspinlock_unlock`: whoever is at the head of the queue may go on. -/
theorem Inv.held (h : Inv s q w) (ht : s.pc t = .held) (hm : qspinlock.move s t = some s') :
    Inv s' q w := by
  have hv := qspinlock.moved rfl ht rfl hm
  have hlock : s'.lock = { s.lock with locked := 0 } := hv.lock
  have hmem : s'.mem = s.mem := hv.mem
  have hpc : s'.pc = Function.update s.pc t .out := hv.pc
  refine h.goto hpc ?_ (h.flag.clear hpc (by rw [hlock]) (by rw [ht]; trivial) id) ?_ ?_ trivial ?_
    fun ha => ha.elim
  · exact h.queue.stay (h.queue.live.step lawful (.access hm)) hpc (by rw [hlock]; rfl)
      (fun x _ => layout.next_eq hmem x) (by rw [ht]; rfl) (by rw [ht]; rfl)
  · intro r
    rw [same_goto (f := Pc.acquired) hpc (by rw [ht]; rfl)]
    exact h.acquired r
  · obtain ⟨e, he, hx⟩ := h.fifo
    exact ⟨e, hv.entered.trans he, hv.exchanged.trans hx⟩
  · intro u hu
    exact .of_mem hmem (fun _ _ hr => hr) fun _ => ⟨fun _ => by rw [hlock], fun v hv =>
      hv.keep hpc (fun _ hr => hr) (fun _ _ => by rw [hmem]) (by simp [ht])⟩

/-! ## Leaving the queue -/

/-- The call that has the lock leaves the queue. -/
theorem Inv.leave {r : List (Ref ι A)} (h : Inv s (mm :: r) w) (hs : qspinlock.Step s s')
    (ht : (s.pc t).acquired = some mm)
    (hp : p.queued = none ∧ p.links = none ∧ p.acquired = none ∧ p.Holds)
    (hpc : s'.pc = Function.update s.pc t p) (hmem : s'.mem = s.mem)
    (hlocked : s'.lock.locked = s.lock.locked)
    (hlog : s'.exchanged = s.exchanged ∧ s'.entered = s.entered)
    (hqueue : LinkedQueue layout.format s'.lock.next (layout.next s) (layout.Pend s) r)
    (hat : At s' r p) : Inv s' r none := by
  obtain ⟨hq, hl, ha, hh⟩ := hp
  have hactive : Active s (s.pc t) := active_of_acquired ht
  obtain ⟨hqd, hlinks, hholds⟩ : (s.pc t).queued = some mm ∧ (s.pc t).links = none ∧
      (s.pc t).Holds := by
    cases hp : s.pc t with
    | loadNext x | compareExchange x | awaitNext x =>
      rw [hp] at ht
      exact ⟨ht, rfl, trivial⟩
    | _ =>
      rw [hp] at ht
      cases ht
  have hthread := h.queue.thread_eq hqd
  have hw : w = some mm := (h.acquired mm).2 (by rw [hthread]; exact ht)
  refine h.goto hpc ?_ (h.flag.stay hpc hlocked ?_) ?_ ?_ hat ?_ fun _ => .inl hactive
  · exact h.queue.leave (h.queue.live.step lawful hs) hpc hqd hlinks hq hl
      (fun x => layout.next_eq hmem x) hqueue
  · exact propext (iff_of_true hh hholds)
  · intro x
    refine iff_of_false (by simp) ?_
    intro hx
    rw [hpc] at hx
    by_cases hxt : x.thread = t
    · rw [hxt, Function.update_self, ha] at hx
      cases hx
    · rw [Function.update_of_ne hxt] at hx
      exact hxt (h.one _ _ (active_of_acquired hx) hactive)
  · obtain ⟨e, he, hx⟩ := h.fifo
    refine ⟨e ++ [mm], ?_, ?_⟩
    · rw [hlog.2, he, hw]
      simp
    · rw [hlog.1, hx]
      simp
  · intro u hu
    refine .of_mem hmem ?_ fun hua => absurd (h.one u t hua hactive) hu
    intro x hx hhead
    obtain rfl : mm = x := Option.some.inj hhead
    exact absurd (h.queue.eq_of_queued hqd hx) hu

/-- What the head of the queue finds as its successor waits in its node. -/
theorem Inv.next_waits {r : List (Ref ι A)} (h : Inv s (mm :: r) w)
    (ht : (s.pc t).queued = some mm) (hactive : Active s (s.pc t))
    (hne : (s.mem mm.addr).next ≠ .null) :
    ∃ y, (s.mem mm.addr).next = .node y ∧ r.head? = some y ∧ y.thread ≠ t ∧
      s.pc y.thread = .awaitNode y ∧ (s.mem y.addr).locked = 0 := by
  obtain ⟨y, r', rfl, hy, hymm, hyq, hlinks⟩ := h.queue.successor hne
  have hhead : (mm :: y :: r').head? ≠ some y := fun he => hymm (Option.some.inj he).symm
  have hky := h.known y.thread
  have hyt : y.thread ≠ t := by
    intro he
    rw [he, show layout.queued (s.pc t) = some mm from ht] at hyq
    exact hymm (Option.some.inj hyq).symm
  refine ⟨y, hy, rfl, hyt, ?_⟩
  cases hp : s.pc y.thread with
  | awaitNode z =>
    rw [hp] at hyq
    obtain rfl : z = y := Option.some.inj hyq
    refine ⟨rfl, ?_⟩
    by_contra hlocked
    exact hyt (h.one _ _ (by rw [hp]; exact hlocked) hactive)
  | link z prev =>
    rw [hp] at hky hlinks
    obtain ⟨x, rfl⟩ := hky.2
    exact absurd rfl (hlinks x)
  | awaitLock z | loadNext z | compareExchange z | awaitNext z =>
    rw [hp] at hyq hky
    obtain rfl : z = y := Option.some.inj hyq
    exact absurd hky hhead
  | setLocked z =>
    rw [hp] at hyq hky
    obtain rfl : z = y := Option.some.inj hyq
    exact absurd hky.1 hhead
  | out | initNext z | initLocked z | exchange z | pass z v | held =>
    rw [hp] at hyq
    cases hyq

/-- The head of the queue reads its own `next`: it goes on, or leaves with its successor. -/
theorem Inv.readNext (h : Inv s q w) (hs : qspinlock.Step s s')
    (ht : s.pc t = .loadNext mm ∨ s.pc t = .awaitNext mm)
    (hp : p = .compareExchange mm ∨ p = .awaitNext mm)
    (hpc : s'.pc = Function.update s.pc t
      (if (s.mem mm.addr).next = .null then p else .pass mm (s.mem mm.addr).next))
    (hlock : s'.lock = s.lock) (hmem : s'.mem = s.mem)
    (hlog : s'.exchanged = s.exchanged ∧ s'.entered = s.entered) : ∃ q' w', Inv s' q' w' := by
  have hk := h.known t
  obtain ⟨hacq, hqd, hlinks, hholds, hk⟩ : (s.pc t).acquired = some mm ∧
      (s.pc t).queued = some mm ∧ (s.pc t).links = none ∧ (s.pc t).Holds ∧
      q.head? = some mm := by
    rcases ht with ht | ht <;> rw [ht] at hk ⊢ <;> exact ⟨rfl, rfl, rfl, trivial, hk⟩
  have hactive : Active s (s.pc t) := active_of_acquired hacq
  obtain ⟨r, rfl⟩ := List.head?_eq_some_iff.1 hk
  split at hpc
  case isTrue hnull =>
    refine ⟨_, _, h.stay hs hpc hmem hlock hlog ?_ (.inl hactive) ?_ fun _ => hactive⟩
    · rw [hqd, hlinks, hacq, show (s.pc t).Holds = True from propext (iff_true_intro hholds)]
      rcases hp with rfl | rfl <;> exact ⟨rfl, rfl, rfl, rfl⟩
    · rcases hp with rfl | rfl <;> exact hk
  case isFalse hne =>
    refine ⟨r, none, h.leave (p := .pass mm _) hs hacq ⟨rfl, rfl, rfl, trivial⟩ hpc hmem
      (by rw [hlock]) hlog ?_ ?_⟩
    · rw [hlock]
      exact h.queue.queue.pop hne
    · obtain ⟨y, hy, hhead, hyt, hyp, hyl⟩ := h.next_waits hqd hactive hne
      refine ⟨y, hy, hhead, ?_, by rw [hmem]; exact hyl⟩
      rw [hpc, Function.update_of_ne hyt]
      exact hyp

theorem Inv.loadNext (h : Inv s q w) (ht : s.pc t = .loadNext mm)
    (hm : qspinlock.move s t = some s') : ∃ q' w', Inv s' q' w' := by
  have hv := qspinlock.moved rfl ht rfl hm
  exact h.readNext (.access hm) (.inl ht) (.inl rfl) hv.pc hv.lock
    (hv.mem.trans (Function.update_eq_self _ _)) ⟨hv.exchanged, hv.entered⟩

theorem Inv.awaitNext (h : Inv s q w) (ht : s.pc t = .awaitNext mm)
    (hm : qspinlock.move s t = some s') : ∃ q' w', Inv s' q' w' := by
  have hv := qspinlock.moved rfl ht rfl hm
  exact h.readNext (.access hm) (.inr ht) (.inr rfl) hv.pc hv.lock
    (hv.mem.trans (Function.update_eq_self _ _)) ⟨hv.exchanged, hv.entered⟩

theorem Inv.compareExchange (h : Inv s q w) (ht : s.pc t = .compareExchange mm)
    (hm : qspinlock.move s t = some s') : ∃ q' w', Inv s' q' w' := by
  have hv := qspinlock.moved rfl ht rfl hm
  have hmem : s'.mem = s.mem := hv.mem
  have hactive : Active s (s.pc t) := by rw [ht]; trivial
  have hk := h.known t
  rw [ht] at hk
  obtain ⟨r, rfl⟩ := List.head?_eq_some_iff.1 hk
  have hpc := hv.pc
  have hlock := hv.lock
  dsimp only at hpc hlock
  split at hpc
  case isTrue hsame =>
    rw [if_pos hsame] at hlock
    obtain rfl := h.queue.queue.eq_nil_of_tail (h.queue.tail_eq (.head _) hsame)
    refine ⟨[], none, h.leave (p := .held) (.access hm) (congrArg Pc.acquired ht)
      ⟨rfl, rfl, rfl, trivial⟩ hpc hmem (by rw [hlock]; rfl) ⟨hv.exchanged, hv.entered⟩ ?_ trivial⟩
    rw [hlock]
    exact h.queue.queue.close
  case isFalse hdiff =>
    rw [if_neg hdiff] at hlock
    refine ⟨_, _, h.stay (.access hm) hpc hmem hlock ⟨hv.exchanged, hv.entered⟩ ?_
      (.inl hactive) hk fun _ => hactive⟩
    rw [ht]
    exact ⟨rfl, rfl, rfl, rfl⟩

/-- The head of the queue is past its wait now. -/
theorem Inv.pass {next : Ptr ι A} (h : Inv s q w) (ht : s.pc t = .pass mm next)
    (hm : qspinlock.move s t = some s') : Inv s' q w := by
  have hk := h.known t
  have hactive : Active s (s.pc t) := by rw [ht]; trivial
  rw [ht] at hk
  obtain ⟨y, rfl, hy, hyp, hyl⟩ := hk
  have hv := qspinlock.moved rfl ht rfl hm
  have hlock : s'.lock = s.lock := hv.lock
  have hmem : s'.mem = Function.update s.mem y.addr { s.mem y.addr with locked := 1 } := hv.mem
  have hpc : s'.pc = Function.update s.pc t .held := hv.pc
  have hnext : ∀ a, (s'.mem a).next = (s.mem a).next := by
    intro a
    rw [hmem]
    apply field_update (f := Mcslock.next)
    rfl
  have hkept : ∀ u, u ≠ t → u ≠ y.thread → Kept s s' q q (s.pc u) := by
    intro u hu huy
    have hsame : ∀ r, (s.pc u).node = some r → s'.mem r.addr = s.mem r.addr := by
      intro r hr
      rw [hmem]
      exact h.queue.live.mem_other (congrArg Pc.node hyp) huy hr
    refine ⟨fun r hr => by rw [hsame r hr], fun r hr => ?_, fun _ _ hr => hr,
      fun hua => absurd (h.one u t hua hactive) hu⟩
    rcases hr with hr | hr <;> exact hsame r (by rw [hr]; rfl)
  refine ⟨?_, ?_, ?_, ?_, ?_, ?_⟩
  · exact h.queue.stay (h.queue.live.step lawful (.access hm)) hpc (by rw [hlock])
      (fun x _ => hnext x.addr) (by rw [ht]; rfl) (by rw [ht]; rfl)
  · exact h.flag.stay hpc (by rw [hlock]) (by rw [ht]; rfl)
  · intro r
    rw [same_goto (f := Pc.acquired) hpc (by rw [ht]; rfl)]
    exact h.acquired r
  · obtain ⟨e, he, hx⟩ := h.fifo
    exact ⟨e, hv.entered.trans he, hv.exchanged.trans hx⟩
  · exact unique_handover h.one hpc hactive id fun u hu huy => (hkept u hu huy).active_iff.1
  · refine known_goto h.known hpc trivial ?_
    intro u hut hku
    by_cases huy : u = y.thread
    · rw [huy, hyp]
      exact fun _ => hy
    · exact (hkept u hut huy).at hku

/-! ## Entering the queue -/

/-- A call that is not in the queue writes its own node. -/
theorem Inv.initialise {n : Mcslock ι A} (h : Inv s q w) (hs : qspinlock.Step s s')
    (ht : s.pc t = .initNext mm ∨ s.pc t = .initLocked mm)
    (hp : p = .initLocked mm ∨ p = .exchange mm) (hpc : s'.pc = Function.update s.pc t p)
    (hlock : s'.lock = s.lock) (hmem : s'.mem = Function.update s.mem mm.addr n)
    (hlog : s'.exchanged = s.exchanged ∧ s'.entered = s.entered) (hat : At s' q p) :
    Inv s' q w := by
  obtain ⟨hnode, hq, hl, hw, hh, hno⟩ : (s.pc t).node = some mm ∧ (s.pc t).queued = none ∧
      (s.pc t).links = none ∧ (s.pc t).acquired = none ∧ (s.pc t).Holds = False ∧
      ∀ y, s.pc t ≠ .awaitNode y := by
    rcases ht with ht | ht <;> rw [ht] <;> exact ⟨rfl, rfl, rfl, rfl, rfl, by simp⟩
  obtain ⟨hq', hl', hw', hh'⟩ : p.queued = none ∧ p.links = none ∧ p.acquired = none ∧
      p.Holds = False := by
    rcases hp with rfl | rfl <;> exact ⟨rfl, rfl, rfl, rfl⟩
  have hsame : ∀ u, u ≠ t → ∀ r, (s.pc u).node = some r → s'.mem r.addr = s.mem r.addr := by
    intro u hu r hr
    rw [hmem]
    exact h.queue.live.mem_other hnode hu hr
  refine h.goto hpc ?_ (h.flag.stay hpc (by rw [hlock]) (hh'.trans hh.symm)) ?_ ?_ hat ?_ ?_
  · refine h.queue.stay (h.queue.live.step lawful hs) hpc (by rw [hlock]) ?_ (hq'.trans hq.symm)
      (hl'.trans hl.symm)
    intro x hx
    unfold Layout.next
    rw [hsame _ (h.queue.thread_ne hq hx) x (h.queue.running hx)]
  · intro r
    rw [same_goto hpc (hw'.trans hw.symm)]
    exact h.acquired r
  · rw [hlog.1, hlog.2]
    exact h.fifo
  · intro u hu
    refine ⟨fun r hr => by rw [hsame u hu r hr], fun r hr => ?_, fun _ _ hr => hr, fun _ => ?_⟩
    · rcases hr with hr | hr <;> exact hsame u hu r (by rw [hr]; rfl)
    · refine ⟨fun hz => by rw [hlock]; exact hz, fun v hv => hv.keep hpc (fun _ hr => hr) ?_
        fun y hy => absurd hy (hno y)⟩
      intro r hr
      have hrt : r.thread ≠ t := by
        intro he
        rw [he] at hr
        exact hno r hr
      rw [hsame _ hrt r (by rw [hr]; rfl)]
  · intro ha
    rcases hp with rfl | rfl <;> exact ha.elim

theorem Inv.initNext (h : Inv s q w) (ht : s.pc t = .initNext mm)
    (hm : qspinlock.move s t = some s') : Inv s' q w := by
  have hv := qspinlock.moved rfl ht rfl hm
  have hmem : s'.mem mm.addr = { s.mem mm.addr with next := .null } := by
    rw [hv.mem]
    exact Function.update_self _ _ _
  refine h.initialise (.access hm) (.inl ht) (.inl rfl) hv.pc hv.lock hv.mem
    ⟨hv.exchanged, hv.entered⟩ ?_
  show (s'.mem mm.addr).next = .null
  rw [hmem]

theorem Inv.initLocked (h : Inv s q w) (ht : s.pc t = .initLocked mm)
    (hm : qspinlock.move s t = some s') : Inv s' q w := by
  have hv := qspinlock.moved rfl ht rfl hm
  have hk := h.known t
  rw [ht] at hk
  have hmem : s'.mem mm.addr = { s.mem mm.addr with locked := 0 } := by
    rw [hv.mem]
    exact Function.update_self _ _ _
  refine h.initialise (.access hm) (.inr ht) (.inr rfl) hv.pc hv.lock hv.mem
    ⟨hv.exchanged, hv.entered⟩ ?_
  show (s'.mem mm.addr).next = .null ∧ (s'.mem mm.addr).locked = 0
  rw [hmem]
  exact ⟨hk, rfl⟩

/-- While the queue is empty, nobody is past its wait but a call that has left the queue, and its
successor is in the queue. -/
theorem Inv.active_nil (h : Inv s [] w) (u : ι) : ¬ Active s (s.pc u) := by
  intro hu
  have hk := h.known u
  cases hp : s.pc u with
  | out | initNext mm | initLocked mm | exchange mm | link mm prev | held =>
    rw [hp] at hu
    exact hu
  | awaitNode mm =>
    rw [hp] at hk hu
    cases hk hu
  | awaitLock mm | loadNext mm | compareExchange mm | awaitNext mm =>
    rw [hp] at hk
    cases hk
  | setLocked mm =>
    rw [hp] at hk
    cases hk.1
  | pass mm next =>
    rw [hp] at hk
    obtain ⟨y, -, hy, -⟩ := hk
    cases hy

theorem Inv.exchange (h : Inv s q w) (ht : s.pc t = .exchange mm)
    (hm : qspinlock.move s t = some s') : Inv s' (q ++ [mm]) w := by
  have hv := qspinlock.moved rfl ht rfl hm
  have hk := h.known t
  have hmem : s'.mem = s.mem := hv.mem
  have hlock : s'.lock = { s.lock with next := .node mm } := hv.lock
  rw [ht] at hk
  have hpc := hv.pc
  dsimp only at hpc
  generalize hp : (if s.lock.next = .null then Pc.awaitLock mm else .link mm s.lock.next) = p at hpc
  refine h.goto hpc ?_ (h.flag.stay hpc (by rw [hlock]) ?_) ?_ ?_ ?_ ?_ ?_
  · refine h.queue.exchange (h.queue.live.step lawful (.access hm)) hpc (congrArg Pc.node ht)
      (congrArg Pc.queued ht) ?_ ?_ (by rw [hlock]; rfl)
      (fun x => layout.next_eq hmem x) hk.1
    · rw [← hp]
      split <;> rfl
    · intro x
      show p.links = some (.node x) ↔ s.lock.next = .node x
      rw [← hp]
      split
      case isTrue hnull => simp [hnull, Pc.links]
      case isFalse => simp [Pc.links]
  · rw [ht, ← hp]
    split <;> rfl
  · intro r
    rw [same_goto (f := Pc.acquired) hpc]
    · exact h.acquired r
    · rw [ht, ← hp]
      split <;> rfl
  · obtain ⟨e, he, hx⟩ := h.fifo
    have hexchanged : s'.exchanged = s.exchanged ++ [mm] := hv.exchanged
    have hentered : s'.entered = s.entered := hv.entered
    refine ⟨e, hentered.trans he, ?_⟩
    rw [hexchanged, hx, List.append_assoc]
  · rw [← hp]
    split
    case isTrue hnull =>
      rw [h.queue.tail_empty.1 hnull]
      exact rfl
    case isFalse hne => exact ⟨by rw [hmem]; exact hk.2, h.queue.tail_node hne⟩
  · intro u hu
    have happend : ∀ r, q.head? = some r → (q ++ [mm]).head? = some r :=
      fun r hr => List.mem_head?_append_of_mem_head? hr
    exact .of_mem hmem (fun r _ => happend r) fun _ => ⟨fun hz => by rw [hlock]; exact hz,
      fun v hv => hv.keep hpc happend (fun _ _ => by rw [hmem]) (by simp [ht])⟩
  · rw [← hp]
    split
    case isTrue hnull =>
      -- the queue was empty: nobody else is past its wait
      intro _
      obtain rfl := h.queue.tail_empty.1 hnull
      exact .inr fun u _ => h.active_nil u
    case isFalse => exact fun ha => ha.elim

theorem Inv.link {prev : Ptr ι A} (h : Inv s q w) (ht : s.pc t = .link mm prev)
    (hm : qspinlock.move s t = some s') : Inv s' q w := by
  have hk := h.known t
  rw [ht] at hk
  obtain ⟨hlocked, x, rfl⟩ := hk
  have hv := qspinlock.moved rfl ht rfl hm
  have hlock : s'.lock = s.lock := hv.lock
  have hmem : s'.mem = Function.update s.mem x.addr { s.mem x.addr with next := .node mm } := hv.mem
  have hpc : s'.pc = Function.update s.pc t (.awaitNode mm) := hv.pc
  have hx := h.queue.mem_of_links (congrArg Pc.queued ht) (congrArg Pc.links ht)
  have hsame : ∀ a, (s'.mem a).locked = (s.mem a).locked := by
    intro a
    rw [hmem]
    apply field_update (f := Mcslock.locked)
    rfl
  have hother : ∀ r, qspinlock.Running s r → r ≠ x → s'.mem r.addr = s.mem r.addr := by
    intro r hr hrx
    rw [hmem]
    exact h.queue.live.update_other (h.queue.running hx) hr hrx
  have hpassive : (s'.mem mm.addr).locked = 0 := (hsame _).trans hlocked
  refine h.goto hpc ?_ (h.flag.stay hpc (by rw [hlock]) (by rw [ht]; rfl)) ?_ ?_ ?_ ?_ ?_
  · refine h.queue.setLink (h.queue.live.step lawful (.access hm)) hpc (congrArg Pc.queued ht)
      (congrArg Pc.links ht) rfl rfl (by rw [hlock]) ?_ fun z hz hzx => ?_
    · unfold Layout.next
      rw [hmem, Function.update_self]
      rfl
    · unfold Layout.next
      rw [hother z (h.queue.running hz) hzx]
  · intro r
    rw [same_goto (f := Pc.acquired) hpc (by rw [ht]; rfl)]
    exact h.acquired r
  · obtain ⟨e, he, hx⟩ := h.fifo
    exact ⟨e, hv.entered.trans he, hv.exchanged.trans hx⟩
  · exact fun hne => absurd hpassive hne
  · intro u hu
    refine ⟨fun r _ => hsame r.addr, fun r hr => ?_, fun _ _ hr => hr,
      fun _ => ⟨fun hz => by rw [hlock]; exact hz,
        fun v hv => hv.keep hpc (fun _ hr => hr) (fun r _ => hsame r.addr) (by simp [ht])⟩⟩
    -- the node of a call that has not exchanged is not in the queue
    have hnode : (s.pc u).node = some r := by
      rcases hr with hr | hr <;> rw [hr] <;> rfl
    have hout : (s.pc u).queued = none := by
      rcases hr with hr | hr <;> rw [hr] <;> rfl
    refine hother r (h.queue.live.running hnode) ?_
    intro he
    rw [← he] at hx
    exact h.queue.not_mem_of_node hnode hout hx
  · exact fun hne => absurd hpassive hne

/-! ## Every step -/

theorem Inv.call {a : A} (h : Inv s q w) (ht : s.pc t = .out) (ha : qspinlock.Free s a) :
    Inv { s with
      pc := Function.update s.pc t (.initNext ⟨t, s.calls, a⟩), calls := s.calls + 1 } q w := by
  refine h.stay (.call a ht ha) rfl rfl rfl ⟨rfl, rfl⟩ ?_ (.inr (by simp [ht])) trivial
    fun ha => ha.elim
  rw [ht]
  exact ⟨rfl, rfl, rfl, rfl⟩

theorem Inv.other {a : A} {n : Mcslock ι A} (h : Inv s q w) (ha : qspinlock.Free s a) :
    Inv { s with mem := Function.update s.mem a n } q w := by
  have hsame : ∀ u r, (s.pc u).node = some r → Function.update s.mem a n r.addr = s.mem r.addr :=
    fun u r hr => Function.update_of_ne (ha u r hr) _ _
  have hkept : ∀ u, Kept s { s with mem := Function.update s.mem a n } q q (s.pc u) := by
    intro u
    refine ⟨fun r hr => congrArg Mcslock.locked (hsame u r hr), fun r hr => ?_, fun _ _ hr => hr,
      fun _ => ⟨id, fun v hv => ?_⟩⟩
    · rcases hr with hr | hr <;> exact hsame u r (by rw [hr]; rfl)
    · obtain ⟨y, hv, hy, hyp, hyl⟩ := hv
      exact ⟨y, hv, hy, hyp,
        (congrArg Mcslock.locked (hsame _ y (congrArg Pc.node hyp))).trans hyl⟩
  refine ⟨h.queue.other lawful ha, ⟨h.flag.one, h.flag.locked⟩, h.acquired, h.fifo, ?_, ?_⟩
  · intro u v hu hv
    exact h.one u v ((hkept u).active_iff.1 hu) ((hkept v).active_iff.1 hv)
  · intro u
    exact (hkept u).at (h.known u)

/-- **Every step keeps the invariant.** -/
theorem Inv.step (h : Inv s q w) (hs : qspinlock.Step s s') : ∃ q' w', Inv s' q' w' := by
  cases hs with
  | call a ht ha => exact ⟨_, _, h.call ht ha⟩
  | other a n ha => exact ⟨_, _, h.other ha⟩
  | @access _ t hm =>
    cases ht : s.pc t with
    | out =>
      obtain ⟨x, n, hx, -⟩ := (Program.move_eq_some _).1 hm
      rw [ht] at hx
      cases hx
    | initNext mm => exact ⟨_, _, h.initNext ht hm⟩
    | initLocked mm => exact ⟨_, _, h.initLocked ht hm⟩
    | exchange mm => exact ⟨_, _, h.exchange ht hm⟩
    | link mm prev => exact ⟨_, _, h.link ht hm⟩
    | awaitNode mm => exact ⟨_, _, h.awaitNode ht hm⟩
    | awaitLock mm => exact ⟨_, _, h.awaitLock ht hm⟩
    | setLocked mm => exact ⟨_, _, h.setLocked ht hm⟩
    | loadNext mm => exact h.loadNext ht hm
    | compareExchange mm => exact h.compareExchange ht hm
    | awaitNext mm => exact h.awaitNext ht hm
    | pass mm next => exact ⟨_, _, h.pass ht hm⟩
    | held => exact ⟨_, _, h.held ht hm⟩

/-! ## Every run -/

theorem Reached.inv (h : Reached s) : ∃ q w, Inv s q w := by
  apply Reachable.invariant (J := fun s => ∃ q w, Inv s q w) ?_ ?_ h
  · rintro s ⟨mem, rfl⟩
    exact ⟨[], none, .start mem⟩
  · intro s s' ⟨q, w, hi⟩ hs
    exact hi.step hs

/-- The calls have got the lock in the order in which they exchanged the tail. -/
theorem Inv.entered_prefix (h : Inv s q w) : s.entered <+: s.exchanged := by
  obtain ⟨e, he, hx⟩ := h.fifo
  rw [he, hx, List.prefix_append_right_inj]
  cases hw : w with
  | none => exact List.nil_prefix
  | some r =>
    obtain ⟨l, rfl⟩ := List.head?_eq_some_iff.1 (h.acquired_head hw)
    exact ⟨l, rfl⟩

/-- Every access is to the lock, or to the node of a call under way. -/
theorem Inv.access {x : Access ι A (Mcslock ι A) (Pc ι A)} (h : Inv s q w)
    (hx : code (s.pc t) = some x) :
    x.target ≠ .null ∧ ∀ r, x.target = .node r → qspinlock.Running s r := by
  have hk := h.known t
  have hown : ∀ mm, (s.pc t).node = some mm →
      (Ptr.node mm ≠ .null ∧ ∀ r, Ptr.node mm = .node r → qspinlock.Running s r) := by
    intro mm hmm
    refine ⟨by simp, fun r hr => ?_⟩
    rw [← Ptr.node.inj hr]
    exact h.queue.live.running hmm
  cases ht : s.pc t with
  | out =>
    rw [ht] at hx
    cases hx
  | initNext mm | initLocked mm | awaitNode mm | loadNext mm | awaitNext mm =>
    rw [ht] at hx
    obtain rfl := Option.some.inj hx
    exact hown mm (congrArg Pc.node ht)
  | exchange mm | awaitLock mm | setLocked mm | compareExchange mm | held =>
    rw [ht] at hx
    obtain rfl := Option.some.inj hx
    exact ⟨by simp, by simp⟩
  | link mm prev =>
    rw [ht] at hx hk
    obtain rfl := Option.some.inj hx
    obtain ⟨-, x, rfl⟩ := hk
    refine ⟨by simp, fun r hr => ?_⟩
    rw [← Ptr.node.inj hr]
    exact h.queue.running (h.queue.mem_of_links (congrArg Pc.queued ht) (congrArg Pc.links ht))
  | pass mm next =>
    rw [ht] at hx hk
    obtain rfl := Option.some.inj hx
    obtain ⟨y, rfl, hy, -⟩ := hk
    refine ⟨by simp, fun r hr => ?_⟩
    rw [← Ptr.node.inj hr]
    exact h.queue.running (List.mem_of_head? hy)

/-- **`fjx_qspinlock` is a lock over `fjx_mcslock`, and a fair one.** In every state reached from
`FJX_QSPINLOCK_INIT` at most one thread holds the queue, and at most one is between the store of
`lock->locked` in `fjx_qspinlock_lock` and that in `fjx_qspinlock_unlock`; the flag is set as long
as there is one; the calls have got the lock in the order in which they exchanged the tail; no next
access of a thread is through a null pointer, and none is to the node of a call that has
returned. -/
theorem qspinlock_correct (h : Reached s) :
    (∀ t u, (s.pc t).HoldsQueue → (s.pc u).HoldsQueue → t = u) ∧
    (∀ t u, (s.pc t).Holds → (s.pc u).Holds → t = u) ∧
    (s.lock.locked = 0 ∨ s.lock.locked = 1) ∧ (s.lock.locked = 1 ↔ ∃ t, (s.pc t).Holds) ∧
    s.entered <+: s.exchanged ∧
    ∀ t x, qspinlock.code (s.pc t) = some x → x.target ≠ .null ∧
      ∀ r, x.target = .node r → qspinlock.Running s r ∧ r ∉ s.returned := by
  obtain ⟨q, w, hi⟩ := h.inv
  refine ⟨?_, hi.flag.one, ?_, ?_, hi.entered_prefix, ?_⟩
  · intro t u ht hu
    exact hi.one t u (active_of_holdsQueue ht) (active_of_holdsQueue hu)
  · rcases hi.flag.locked with ⟨hl, -⟩ | ⟨hl, -⟩
    · exact .inl hl
    · exact .inr hl
  · rcases hi.flag.locked with ⟨hl, hno⟩ | ⟨hl, ht⟩
    · refine iff_of_false (by rw [hl]; decide) ?_
      intro ⟨t, ht⟩
      exact hno t ht
    · exact iff_of_true hl ht
  · intro t x hx
    obtain ⟨hne, hrun⟩ := hi.access hx
    exact ⟨hne, fun r hr => ⟨hrun r hr, hi.queue.live.not_returned (hrun r hr)⟩⟩

/-- The second of two callers links itself after the first one failed to close the queue, and waits
for the flag at the head; the first one calls again, with its node where the old one was, and
waits for the flag behind it. -/
theorem qspinlock_correct_run : ∃ s : State Bool Nat, Reached s ∧ s.pc true = .held ∧
    s.pc false = .awaitLock ⟨false, 2, 10⟩ ∧ s.returned = [⟨false, 0, 10⟩, ⟨true, 1, 20⟩] ∧
    (s.lock.locked = 1 ↔ ∃ t, (s.pc t).Holds) := by
  have h₀ : Reached (qspinlock.start init fun _ => init : State Bool Nat) := .start ⟨_, rfl⟩
  have h₁ := h₀.next (.call 10 (t := false) rfl (by intro u r hr; cases hr))
  have h₂ := h₁.run (qspinlock.moves_run (rfl : qspinlock.moves _
    [false, false, false, false, false, false] = some _))
  have h₃ := h₂.next (.call 20 (t := true) rfl (by
    intro u r hr
    cases u with
    | false =>
      obtain rfl : _ = r := Option.some.inj hr
      decide
    | true => cases hr))
  have h₄ := h₃.run (qspinlock.moves_run (rfl : qspinlock.moves _
    [true, true, true, false, true, false, false, true, true, false, true] = some _))
  have h₅ := h₄.next (.call 10 (t := false) rfl (by
    intro u r hr
    cases u with
    | false => cases hr
    | true =>
      obtain rfl : _ = r := Option.some.inj hr
      decide))
  have h₆ := h₅.run (qspinlock.moves_run (rfl : qspinlock.moves _
    [false, false, false, true, true, true, false, true, true, false] = some _))
  exact ⟨_, h₆, rfl, rfl, rfl, (qspinlock_correct h₆).2.2.2.1⟩

end Spin.Qspinlock
