import FjxFiber.Spin.McshlockInv

/-!
# Every access of `fjx_mcshlock`

There is one lemma for every access of `code`: it keeps the invariant. `Inv.step` puts them
together, and `mcshlock_correct` says what holds of every run.
-/

set_option autoImplicit false

namespace Spin.Mcshlock

open Lib Lib.StackNodes

variable {ι A : Type*} [DecidableEq ι] [DecidableEq A] {s s' : State ι A} {q q' : List (Ref ι A)}
  {w w' : Option (Ref ι A)} {t : ι} {p : Pc ι A} {mm : Ref ι A}

/-! ## Waiting -/

/-- While `lock->msg` is null, nobody is past its wait but a call that is about to change that. -/
theorem Inv.active_of_null (h : Inv s q w) (hnull : s.lock.msg = .null) {u : ι}
    (hu : Active s (s.pc u)) : ∃ mm, s.pc u = .setMsg mm := by
  have hk := h.known u
  cases hp : s.pc u with
  | setMsg mm => exact ⟨mm, rfl⟩
  | out | initTail mm | initMsg mm | exchange mm | awaitLock mm | link mm prev =>
    rw [hp] at hu
    exact hu.elim
  | awaitMsg mm =>
    rw [hp] at hk hu
    exact absurd hnull (hk hu).2
  | loadTail mm | compareExchange mm | awaitTail mm | storeMsg mm succ | clearMsg succ =>
    rw [hp] at hk
    exact absurd hnull hk.2
  | held =>
    rw [hp] at hk
    exact absurd hnull (Succ.ne_null hk)

theorem Inv.awaitLock (h : Inv s q w) (ht : s.pc t = .awaitLock mm)
    (hm : mcshlock.move s t = some s') : Inv s' q w := by
  have hv := mcshlock.moved rfl ht rfl hm
  have hlock : s'.lock = s.lock := hv.lock
  have hk := h.known t
  rw [ht] at hk
  refine h.stay (.access hm) hv.pc hv.mem (by rw [hlock]) ⟨hv.exchanged, hv.entered⟩ ?_
    (.inr ⟨by rw [hlock], by simp [ht]⟩) ?_ ?_
  · rw [ht]
    dsimp only
    split <;> exact ⟨rfl, rfl, rfl⟩
  · dsimp only
    split <;> exact hk
  · dsimp only
    split
    case isFalse => exact fun ha => ha.elim
    case isTrue hnull =>
      -- whoever else is past its wait is at the head of the queue, as this call is
      intro _
      refine .inr fun u hu hua => hu ?_
      obtain ⟨mm', hu'⟩ := h.active_of_null hnull hua
      have hku := h.known u
      rw [hu'] at hku
      obtain rfl : mm' = mm := Option.some.inj (hku.symm.trans hk)
      exact h.queue.eq_of_queued (congrArg Pc.queued ht) (congrArg Pc.queued hu')

theorem Inv.setMsg (h : Inv s q w) (ht : s.pc t = .setMsg mm)
    (hm : mcshlock.move s t = some s') : Inv s' q w := by
  have hv := mcshlock.moved rfl ht rfl hm
  have hlock : s'.lock = { s.lock with msg := .lock } := hv.lock
  have hk := h.known t
  have hactive : Active s (s.pc t) := by rw [ht]; trivial
  rw [ht] at hk
  refine h.stay (.access hm) hv.pc hv.mem (by rw [hlock]) ⟨hv.exchanged, hv.entered⟩ ?_
    (.inl hactive) ⟨hk, ?_⟩ fun _ => .inl hactive
  · rw [ht]
    exact ⟨rfl, rfl, rfl⟩
  · rw [hlock]
    simp

theorem Inv.awaitMsg (h : Inv s q w) (ht : s.pc t = .awaitMsg mm)
    (hm : mcshlock.move s t = some s') : Inv s' q w := by
  have hv := mcshlock.moved rfl ht rfl hm
  have hlock : s'.lock = s.lock := hv.lock
  have hmem : s'.mem = s.mem := hv.mem.trans (Function.update_eq_self _ _)
  have hk := h.known t
  rw [ht] at hk
  have hpc := hv.pc
  dsimp only at hpc
  split at hpc
  case isTrue hnull =>
    have hactive : Active s (s.pc t) := by rw [ht]; exact hnull
    obtain ⟨hq, hl⟩ := hk hnull
    refine h.stay (.access hm) hpc hmem (by rw [hlock]) ⟨hv.exchanged, hv.entered⟩ ?_
      (.inl hactive) ⟨hq, by rw [hlock]; exact hl⟩ fun _ => .inl hactive
    rw [ht]
    exact ⟨rfl, rfl, rfl⟩
  case isFalse hne =>
    have hpassive : (s'.mem mm.addr).msg ≠ .null := by
      rw [hmem]
      exact hne
    refine h.stay (.access hm) hpc hmem (by rw [hlock]) ⟨hv.exchanged, hv.entered⟩ ?_
      (.inr ⟨by rw [hlock], fun y hy => by rw [← hy, ht]⟩) (fun hnull => absurd hnull hpassive)
      fun ha => absurd ha hpassive
    rw [ht]
    exact ⟨rfl, rfl, rfl⟩

/-! ## Leaving the queue -/

/-- Whoever is at the head of the queue and past its wait leaves it. -/
theorem Inv.leave {r : List (Ref ι A)} {v : Ptr ι A} (h : Inv s (mm :: r) w)
    (hs : mcshlock.Step s s') (ht : (s.pc t).queued = some mm) (hactive : Active s (s.pc t))
    (hl : (s.pc t).leaving = none ∧ (s.pc t).links = none ∧ ∀ y, s.pc t ≠ .awaitMsg y)
    (hpc : s'.pc = Function.update s.pc t (.storeMsg mm v)) (hmem : s'.mem = s.mem)
    (hmsg : s'.lock.msg = s.lock.msg) (hne : s.lock.msg ≠ .null)
    (hlog : s'.exchanged = s.exchanged ∧ s'.entered = s.entered)
    (hqueue : LinkedQueue layout.format s'.lock.tail (layout.next s) (layout.Pend s) r)
    (hsucc : Succ s r v) : Inv s' r (some mm) := by
  have hthread := h.queue.thread_eq ht
  -- nobody else is leaving
  have hnone : ∀ x, (s.pc x.thread).leaving ≠ some x := by
    intro x hx
    rw [h.one _ _ (active_of_leaving hx) hactive, hl.1] at hx
    cases hx
  have hw : w = none := by
    cases hw : w with
    | none => rfl
    | some x => exact absurd ((h.leaving x).1 hw) (hnone x)
  refine h.goto hpc ?_ ?_ ?_ ⟨?_, by rw [hmsg]; exact hne⟩ ?_ fun _ => .inl hactive
  · exact h.queue.leave (h.queue.live.step lawful hs) hpc ht hl.2.1 rfl rfl
      (fun x => layout.next_eq hmem x) hqueue
  · intro x
    rw [hpc]
    by_cases hx : x.thread = t
    · rw [hx, Function.update_self]
      exact Iff.rfl
    · rw [Function.update_of_ne hx]
      refine iff_of_false ?_ (hnone x)
      intro he
      rw [← Option.some.inj he, hthread] at hx
      exact hx rfl
  · rw [hlog.1, hlog.2, h.fifo, hw]
    rfl
  · exact hsucc.keep hpc (fun _ hr => hr) (fun _ _ => by rw [hmem])
      fun y hy => absurd hy (hl.2.2 y)
  · intro u hu
    refine .of_mem hmem ?_ fun hua => absurd (h.one u t hua hactive) hu
    intro x hx hhead
    obtain rfl : mm = x := Option.some.inj hhead
    exact absurd (h.queue.eq_of_queued ht hx) hu

/-- What the head of the queue finds as its successor waits in its node. -/
theorem Inv.next_waits {r : List (Ref ι A)} (h : Inv s (mm :: r) w)
    (ht : (s.pc t).queued = some mm) (hactive : Active s (s.pc t))
    (hne : (s.mem mm.addr).tail ≠ .lock) : Succ s r (s.mem mm.addr).tail := by
  obtain ⟨y, r', rfl, hy, hymm, hyq, hlinks⟩ := h.queue.successor hne
  have hhead : (mm :: y :: r').head? ≠ some y := fun he => hymm (Option.some.inj he).symm
  have hky := h.known y.thread
  refine .inr ⟨y, hy, rfl, ?_⟩
  cases hp : s.pc y.thread with
  | awaitMsg z =>
    rw [hp] at hyq
    obtain rfl : z = y := Option.some.inj hyq
    refine ⟨rfl, ?_⟩
    intro hnull
    have hyt := h.one _ _ (by rw [hp]; exact hnull) hactive
    rw [← hyt, hp] at ht
    exact hymm (Option.some.inj ht)
  | link z prev =>
    rw [hp] at hky hlinks
    obtain ⟨x, rfl⟩ := hky.2
    exact absurd rfl (hlinks x)
  | awaitLock z | setMsg z =>
    rw [hp] at hyq hky
    obtain rfl : z = y := Option.some.inj hyq
    exact absurd hky hhead
  | loadTail z | compareExchange z | awaitTail z =>
    rw [hp] at hyq hky
    obtain rfl : z = y := Option.some.inj hyq
    exact absurd hky.1 hhead
  | out | initTail z | initMsg z | exchange z | storeMsg z v | held | clearMsg v =>
    rw [hp] at hyq
    cases hyq

/-- The head of the queue reads its own `tail`: it goes on, or leaves with its successor. -/
theorem Inv.readTail (h : Inv s q w) (hs : mcshlock.Step s s')
    (ht : s.pc t = .loadTail mm ∨ s.pc t = .awaitTail mm)
    (hp : p = .compareExchange mm ∨ p = .awaitTail mm)
    (hpc : s'.pc = Function.update s.pc t
      (if (s.mem mm.addr).tail = .lock then p else .storeMsg mm (s.mem mm.addr).tail))
    (hlock : s'.lock = s.lock) (hmem : s'.mem = s.mem)
    (hlog : s'.exchanged = s.exchanged ∧ s'.entered = s.entered) : ∃ q' w', Inv s' q' w' := by
  have hk := h.known t
  obtain ⟨hqd, hactive, hl, hk⟩ : (s.pc t).queued = some mm ∧ Active s (s.pc t) ∧
      ((s.pc t).leaving = none ∧ (s.pc t).links = none ∧ ∀ y, s.pc t ≠ .awaitMsg y) ∧
      q.head? = some mm ∧ s.lock.msg ≠ .null := by
    rcases ht with ht | ht <;> rw [ht] at hk ⊢ <;>
      exact ⟨rfl, trivial, ⟨rfl, rfl, by simp⟩, hk⟩
  obtain ⟨r, rfl⟩ := List.head?_eq_some_iff.1 hk.1
  split at hpc
  case isTrue htail =>
    refine ⟨_, _, h.stay hs hpc hmem (by rw [hlock]) hlog ?_ (.inl hactive) ?_
      fun _ => .inl hactive⟩
    · rw [hqd, hl.1, hl.2.1]
      rcases hp with rfl | rfl <;> exact ⟨rfl, rfl, rfl⟩
    · have hat : (mm :: r).head? = some mm ∧ s'.lock.msg ≠ .null := by
        rw [hlock]
        exact hk
      rcases hp with rfl | rfl <;> exact hat
  case isFalse hne =>
    refine ⟨r, some mm, h.leave hs hqd hactive hl hpc hmem (by rw [hlock]) hk.2 hlog ?_
      (h.next_waits hqd hactive hne)⟩
    rw [hlock]
    exact h.queue.queue.pop hne

theorem Inv.loadTail (h : Inv s q w) (ht : s.pc t = .loadTail mm)
    (hm : mcshlock.move s t = some s') : ∃ q' w', Inv s' q' w' := by
  have hv := mcshlock.moved rfl ht rfl hm
  exact h.readTail (.access hm) (.inl ht) (.inl rfl) hv.pc hv.lock
    (hv.mem.trans (Function.update_eq_self _ _)) ⟨hv.exchanged, hv.entered⟩

theorem Inv.awaitTail (h : Inv s q w) (ht : s.pc t = .awaitTail mm)
    (hm : mcshlock.move s t = some s') : ∃ q' w', Inv s' q' w' := by
  have hv := mcshlock.moved rfl ht rfl hm
  exact h.readTail (.access hm) (.inr ht) (.inr rfl) hv.pc hv.lock
    (hv.mem.trans (Function.update_eq_self _ _)) ⟨hv.exchanged, hv.entered⟩

theorem Inv.compareExchange (h : Inv s q w) (ht : s.pc t = .compareExchange mm)
    (hm : mcshlock.move s t = some s') : ∃ q' w', Inv s' q' w' := by
  have hv := mcshlock.moved rfl ht rfl hm
  have hmem : s'.mem = s.mem := hv.mem
  have hk := h.known t
  have hactive : Active s (s.pc t) := by rw [ht]; trivial
  rw [ht] at hk
  obtain ⟨r, rfl⟩ := List.head?_eq_some_iff.1 hk.1
  have hpc := hv.pc
  have hlock := hv.lock
  dsimp only at hpc hlock
  split at hpc
  case isTrue hsame =>
    rw [if_pos hsame] at hlock
    obtain rfl := h.queue.queue.eq_nil_of_tail (h.queue.tail_eq (.head _) hsame)
    refine ⟨[], some mm, h.leave (.access hm) (congrArg Pc.queued ht) hactive
      (by rw [ht]; simp [Pc.leaving, Pc.links]) hpc hmem (by rw [hlock]; rfl) hk.2
      ⟨hv.exchanged, hv.entered⟩ ?_ (.inl rfl)⟩
    rw [hlock]
    exact h.queue.queue.close
  case isFalse hdiff =>
    rw [if_neg hdiff] at hlock
    have hlock : s'.lock = s.lock := hlock
    refine ⟨_, _, h.stay (.access hm) hpc hmem (by rw [hlock]) ⟨hv.exchanged, hv.entered⟩ ?_
      (.inl hactive) ⟨hk.1, by rw [hlock]; exact hk.2⟩ fun _ => .inl hactive⟩
    rw [ht]
    exact ⟨rfl, rfl, rfl⟩

/-! ## With the lock -/

theorem Inv.storeMsg {succ : Ptr ι A} (h : Inv s q w) (ht : s.pc t = .storeMsg mm succ)
    (hm : mcshlock.move s t = some s') : Inv s' q none := by
  have hv := mcshlock.moved rfl ht rfl hm
  have hk := h.known t
  have hactive : Active s (s.pc t) := by rw [ht]; trivial
  have hlock : s'.lock = { s.lock with msg := succ } := hv.lock
  have hmem : s'.mem = s.mem := hv.mem
  have hw : w = some mm := by
    rw [h.leaving, (h.queue.live.own t mm (by rw [ht]; rfl)).1, ht]
    rfl
  rw [ht] at hk
  refine h.goto hv.pc ?_ ?_ ?_ ?_ ?_ fun _ => .inl hactive
  · exact h.queue.stay (h.queue.live.step lawful (.access hm)) hv.pc (by rw [hlock]; rfl)
      (fun x _ => layout.next_eq hmem x) (by rw [ht]; rfl) (by rw [ht]; rfl)
  · intro r
    refine iff_of_false (by simp) ?_
    intro hr
    rw [hv.pc] at hr
    by_cases hrt : r.thread = t
    · rw [hrt, Function.update_self] at hr
      cases hr
    · rw [Function.update_of_ne hrt] at hr
      exact hrt (h.one _ _ (active_of_leaving hr) hactive)
  · have hexchanged : s'.exchanged = s.exchanged := hv.exchanged
    have hentered : s'.entered = s.entered ++ [mm] := hv.entered
    rw [hexchanged, hentered, h.fifo, hw]
    simp
  · show Succ s' q s'.lock.msg
    rw [hlock]
    exact hk.1.keep hv.pc (fun _ hr => hr) (fun _ _ => by rw [hmem]) (by simp [ht])
  · intro u hu
    exact .of_mem hmem (fun _ _ hr => hr) fun hua => absurd (h.one u t hua hactive) hu

theorem Inv.held (h : Inv s q w) (ht : s.pc t = .held) (hm : mcshlock.move s t = some s') :
    Inv s' q w := by
  have hv := mcshlock.moved rfl ht rfl hm
  have hlock : s'.lock = s.lock := hv.lock
  have hmem : s'.mem = s.mem := hv.mem
  have hk := h.known t
  have hactive : Active s (s.pc t) := by rw [ht]; trivial
  rw [ht] at hk
  refine h.stay (.access hm) hv.pc hmem (by rw [hlock]) ⟨hv.exchanged, hv.entered⟩ ?_
    (.inl hactive) ⟨?_, ?_⟩ fun _ => .inl hactive
  · rw [ht]
    exact ⟨rfl, rfl, rfl⟩
  · exact Succ.keep hk hv.pc (fun r hr => hr) (fun r _ => by rw [hmem]) (by simp [ht])
  · rw [hlock]
    exact Succ.ne_null hk

theorem Inv.clearMsg {succ : Ptr ι A} (h : Inv s q w) (ht : s.pc t = .clearMsg succ)
    (hm : mcshlock.move s t = some s') : Inv s' q w := by
  have hk := h.known t
  have hactive : Active s (s.pc t) := by rw [ht]; trivial
  rw [ht] at hk
  rcases hk.1 with rfl | ⟨y, rfl, hy, hyp, hym⟩
  · -- nobody waits in its node: the lock is free
    have hv := mcshlock.moved rfl ht rfl hm
    have hlock : s'.lock = { s.lock with msg := .null } := hv.lock
    refine h.stay (.access hm) hv.pc hv.mem (by rw [hlock]) ⟨hv.exchanged, hv.entered⟩ ?_
      (.inl hactive) trivial fun ha => ha.elim
    rw [ht]
    exact ⟨rfl, rfl, rfl⟩
  · -- the head of the queue is past its wait now
    have hv := mcshlock.moved rfl ht rfl hm
    have hlock : s'.lock = s.lock := hv.lock
    have hmem : s'.mem = Function.update s.mem y.addr { s.mem y.addr with msg := .null } := hv.mem
    have hpc : s'.pc = Function.update s.pc t .out := hv.pc
    have htail : ∀ a, (s'.mem a).tail = (s.mem a).tail := by
      intro a
      rw [hmem]
      apply field_update (f := Mcshlock.tail)
      rfl
    have hkept : ∀ u, u ≠ t → u ≠ y.thread → Kept s s' q q (s.pc u) := by
      intro u hu huy
      have hsame : ∀ r, (s.pc u).node = some r → s'.mem r.addr = s.mem r.addr := by
        intro r hr
        rw [hmem]
        exact h.queue.live.mem_other (congrArg Pc.node hyp) huy hr
      refine ⟨fun r hr => by rw [hsame r hr], fun r hr => ?_, fun _ _ hr => hr,
        fun hua => absurd (h.one u t hua hactive) hu⟩
      rcases hr with hr | hr <;> exact hsame r (by rw [hr]; rfl)
    refine ⟨?_, ?_, ?_, ?_, ?_⟩
    · exact h.queue.stay (h.queue.live.step lawful (.access hm)) hpc (by rw [hlock])
        (fun x _ => htail x.addr) (by rw [ht]; rfl) (by rw [ht]; rfl)
    · intro r
      rw [same_goto (f := Pc.leaving) hpc (by rw [ht]; rfl)]
      exact h.leaving r
    · have hexchanged : s'.exchanged = s.exchanged := hv.exchanged
      have hentered : s'.entered = s.entered := hv.entered
      rw [hexchanged, hentered]
      exact h.fifo
    · exact unique_handover h.one hpc hactive id fun u hu huy => (hkept u hu huy).active_iff.1
    · refine known_goto h.known hpc trivial ?_
      intro u hut hku
      by_cases huy : u = y.thread
      · rw [huy, hyp]
        intro _
        exact ⟨hy, by rw [hlock]; exact hk.2⟩
      · exact (hkept u hut huy).at hku

/-! ## Entering the queue -/

/-- A call that is not in the queue writes its own node. -/
theorem Inv.initialise {n : Mcshlock ι A} (h : Inv s q w) (hs : mcshlock.Step s s')
    (ht : s.pc t = .initTail mm ∨ s.pc t = .initMsg mm) (hp : p = .initMsg mm ∨ p = .exchange mm)
    (hpc : s'.pc = Function.update s.pc t p) (hlock : s'.lock = s.lock)
    (hmem : s'.mem = Function.update s.mem mm.addr n)
    (hlog : s'.exchanged = s.exchanged ∧ s'.entered = s.entered) (hat : At s' q p) :
    Inv s' q w := by
  obtain ⟨hnode, hq, hl, hw, hno⟩ : (s.pc t).node = some mm ∧ (s.pc t).queued = none ∧
      (s.pc t).links = none ∧ (s.pc t).leaving = none ∧ ∀ y, s.pc t ≠ .awaitMsg y := by
    rcases ht with ht | ht <;> rw [ht] <;> exact ⟨rfl, rfl, rfl, rfl, by simp⟩
  obtain ⟨hq', hl', hw'⟩ : p.queued = none ∧ p.links = none ∧ p.leaving = none := by
    rcases hp with rfl | rfl <;> exact ⟨rfl, rfl, rfl⟩
  have hsame : ∀ u, u ≠ t → ∀ r, (s.pc u).node = some r → s'.mem r.addr = s.mem r.addr := by
    intro u hu r hr
    rw [hmem]
    exact h.queue.live.mem_other hnode hu hr
  refine h.goto hpc ?_ ?_ ?_ hat ?_ ?_
  · refine h.queue.stay (h.queue.live.step lawful hs) hpc (by rw [hlock]) ?_ (hq'.trans hq.symm)
      (hl'.trans hl.symm)
    intro x hx
    unfold Layout.next
    rw [hsame _ (h.queue.thread_ne hq hx) x (h.queue.running hx)]
  · intro r
    rw [same_goto hpc (hw'.trans hw.symm)]
    exact h.leaving r
  · rw [hlog.1, hlog.2]
    exact h.fifo
  · intro u hu
    refine ⟨fun r hr => by rw [hsame u hu r hr], fun r hr => ?_, fun _ _ hr => hr, fun _ => ?_⟩
    · rcases hr with hr | hr <;> exact hsame u hu r (by rw [hr]; rfl)
    · refine ⟨by rw [hlock], fun v hv => hv.keep hpc (fun _ hr => hr) ?_
        fun y hy => absurd hy (hno y)⟩
      intro r hr
      have hrt : r.thread ≠ t := by
        intro he
        rw [he] at hr
        exact hno r hr
      rw [hsame _ hrt r (by rw [hr]; rfl)]
  · intro ha
    rcases hp with rfl | rfl <;> exact ha.elim

theorem Inv.initTail (h : Inv s q w) (ht : s.pc t = .initTail mm)
    (hm : mcshlock.move s t = some s') : Inv s' q w := by
  have hv := mcshlock.moved rfl ht rfl hm
  have hmem : s'.mem mm.addr = { s.mem mm.addr with tail := .lock } := by
    rw [hv.mem]
    exact Function.update_self _ _ _
  refine h.initialise (.access hm) (.inl ht) (.inl rfl) hv.pc hv.lock hv.mem
    ⟨hv.exchanged, hv.entered⟩ ?_
  show (s'.mem mm.addr).tail = .lock
  rw [hmem]

theorem Inv.initMsg (h : Inv s q w) (ht : s.pc t = .initMsg mm)
    (hm : mcshlock.move s t = some s') : Inv s' q w := by
  have hv := mcshlock.moved rfl ht rfl hm
  have hk := h.known t
  rw [ht] at hk
  have hmem : s'.mem mm.addr = { s.mem mm.addr with msg := .lock } := by
    rw [hv.mem]
    exact Function.update_self _ _ _
  refine h.initialise (.access hm) (.inr ht) (.inr rfl) hv.pc hv.lock hv.mem
    ⟨hv.exchanged, hv.entered⟩ ?_
  show (s'.mem mm.addr).tail = .lock ∧ (s'.mem mm.addr).msg = .lock
  rw [hmem]
  exact ⟨hk, rfl⟩

theorem Inv.exchange (h : Inv s q w) (ht : s.pc t = .exchange mm)
    (hm : mcshlock.move s t = some s') : Inv s' (q ++ [mm]) w := by
  have hv := mcshlock.moved rfl ht rfl hm
  have hk := h.known t
  have hmem : s'.mem = s.mem := hv.mem
  have hlock : s'.lock = { s.lock with tail := .node mm } := hv.lock
  rw [ht] at hk
  have hpc := hv.pc
  dsimp only at hpc
  generalize hp : (if s.lock.tail = .null then Pc.awaitLock mm else .link mm s.lock.tail) = p at hpc
  refine h.goto hpc ?_ ?_ ?_ ?_ ?_ ?_
  · refine h.queue.exchange (h.queue.live.step lawful (.access hm)) hpc (congrArg Pc.node ht)
      (congrArg Pc.queued ht) ?_ ?_ (by rw [hlock]; rfl)
      (fun x => layout.next_eq hmem x) hk.1
    · rw [← hp]
      split <;> rfl
    · intro x
      show p.links = some (.node x) ↔ s.lock.tail = .node x
      rw [← hp]
      split
      case isTrue hnull => simp [hnull, Pc.links]
      case isFalse => simp [Pc.links]
  · intro r
    rw [same_goto (f := Pc.leaving) hpc]
    · exact h.leaving r
    · rw [ht, ← hp]
      split <;> rfl
  · have hexchanged : s'.exchanged = s.exchanged ++ [mm] := hv.exchanged
    have hentered : s'.entered = s.entered := hv.entered
    rw [hexchanged, hentered, h.fifo]
    simp
  · rw [← hp]
    split
    case isTrue hnull =>
      rw [h.queue.tail_empty.1 hnull]
      exact rfl
    case isFalse hne => exact ⟨by rw [hmem]; exact hk.2, h.queue.tail_node hne⟩
  · intro u hu
    have happend : ∀ r, q.head? = some r → (q ++ [mm]).head? = some r :=
      fun r hr => List.mem_head?_append_of_mem_head? hr
    exact .of_mem hmem (fun r _ => happend r) fun _ => ⟨by rw [hlock], fun v hv =>
      hv.keep hpc happend (fun _ _ => by rw [hmem]) (by simp [ht])⟩
  · rw [← hp]
    split <;> exact fun ha => ha.elim

theorem Inv.link {prev : Ptr ι A} (h : Inv s q w) (ht : s.pc t = .link mm prev)
    (hm : mcshlock.move s t = some s') : Inv s' q w := by
  have hk := h.known t
  rw [ht] at hk
  obtain ⟨hmsg, x, rfl⟩ := hk
  have hv := mcshlock.moved rfl ht rfl hm
  have hlock : s'.lock = s.lock := hv.lock
  have hmem : s'.mem = Function.update s.mem x.addr { s.mem x.addr with tail := .node mm } := hv.mem
  have hpc : s'.pc = Function.update s.pc t (.awaitMsg mm) := hv.pc
  have hx := h.queue.mem_of_links (congrArg Pc.queued ht) (congrArg Pc.links ht)
  have hmsgs : ∀ a, (s'.mem a).msg = (s.mem a).msg := by
    intro a
    rw [hmem]
    apply field_update (f := Mcshlock.msg)
    rfl
  have hother : ∀ r, mcshlock.Running s r → r ≠ x → s'.mem r.addr = s.mem r.addr := by
    intro r hr hrx
    rw [hmem]
    exact h.queue.live.update_other (h.queue.running hx) hr hrx
  refine h.goto hpc ?_ ?_ ?_ ?_ ?_ ?_
  · refine h.queue.setLink (h.queue.live.step lawful (.access hm)) hpc (congrArg Pc.queued ht)
      (congrArg Pc.links ht) rfl rfl (by rw [hlock]) ?_ fun z hz hzx => ?_
    · unfold Layout.next
      rw [hmem, Function.update_self]
      rfl
    · unfold Layout.next
      rw [hother z (h.queue.running hz) hzx]
  · intro r
    rw [same_goto (f := Pc.leaving) hpc (by rw [ht]; rfl)]
    exact h.leaving r
  · have hexchanged : s'.exchanged = s.exchanged := hv.exchanged
    have hentered : s'.entered = s.entered := hv.entered
    rw [hexchanged, hentered]
    exact h.fifo
  · intro hnull
    rw [hmsgs, hmsg] at hnull
    cases hnull
  · intro u hu
    refine ⟨fun r _ => hmsgs r.addr, fun r hr => ?_, fun _ _ hr => hr, fun _ => ⟨by rw [hlock],
      fun v hv => hv.keep hpc (fun _ hr => hr) (fun r _ => hmsgs r.addr) (by simp [ht])⟩⟩
    -- the node of a call that has not exchanged is not in the queue
    have hnode : (s.pc u).node = some r := by
      rcases hr with hr | hr <;> rw [hr] <;> rfl
    have hout : (s.pc u).queued = none := by
      rcases hr with hr | hr <;> rw [hr] <;> rfl
    refine hother r (h.queue.live.running hnode) ?_
    intro he
    rw [← he] at hx
    exact h.queue.not_mem_of_node hnode hout hx
  · intro ha
    have hnull : (s'.mem mm.addr).msg = .null := ha
    rw [hmsgs, hmsg] at hnull
    cases hnull

/-! ## Every step -/

theorem Inv.call {a : A} (h : Inv s q w) (ht : s.pc t = .out) (ha : mcshlock.Free s a) :
    Inv { s with
      pc := Function.update s.pc t (.initTail ⟨t, s.calls, a⟩), calls := s.calls + 1 } q w := by
  refine h.stay (.call a ht ha) rfl rfl rfl ⟨rfl, rfl⟩ ?_ (.inr ⟨rfl, by simp [ht]⟩) trivial
    fun ha => ha.elim
  rw [ht]
  exact ⟨rfl, rfl, rfl⟩

theorem Inv.other {a : A} {n : Mcshlock ι A} (h : Inv s q w) (ha : mcshlock.Free s a) :
    Inv { s with mem := Function.update s.mem a n } q w := by
  have hsame : ∀ u r, (s.pc u).node = some r → Function.update s.mem a n r.addr = s.mem r.addr :=
    fun u r hr => Function.update_of_ne (ha u r hr) _ _
  have hkept : ∀ u, Kept s { s with mem := Function.update s.mem a n } q q (s.pc u) := by
    intro u
    refine ⟨fun r hr => congrArg Mcshlock.msg (hsame u r hr), fun r hr => ?_, fun _ _ hr => hr,
      fun _ => ⟨rfl, fun v hv => ?_⟩⟩
    · rcases hr with hr | hr <;> exact hsame u r (by rw [hr]; rfl)
    · rcases hv with hv | ⟨y, hv, hy, hyp, hym⟩
      · exact .inl hv
      · refine .inr ⟨y, hv, hy, hyp, ?_⟩
        intro hnull
        exact hym ((congrArg Mcshlock.msg (hsame _ y (congrArg Pc.node hyp))).symm.trans hnull)
  refine ⟨h.queue.other lawful ha, h.leaving, h.fifo, ?_, ?_⟩
  · intro u v hu hv
    exact h.one u v ((hkept u).active_iff.1 hu) ((hkept v).active_iff.1 hv)
  · intro u
    exact (hkept u).at (h.known u)

/-- **Every step keeps the invariant.** -/
theorem Inv.step (h : Inv s q w) (hs : mcshlock.Step s s') : ∃ q' w', Inv s' q' w' := by
  cases hs with
  | call a ht ha => exact ⟨_, _, h.call ht ha⟩
  | other a n ha => exact ⟨_, _, h.other ha⟩
  | @access _ t hm =>
    cases ht : s.pc t with
    | out =>
      obtain ⟨x, n, hx, -⟩ := (Program.move_eq_some _).1 hm
      rw [ht] at hx
      cases hx
    | initTail mm => exact ⟨_, _, h.initTail ht hm⟩
    | initMsg mm => exact ⟨_, _, h.initMsg ht hm⟩
    | exchange mm => exact ⟨_, _, h.exchange ht hm⟩
    | awaitLock mm => exact ⟨_, _, h.awaitLock ht hm⟩
    | setMsg mm => exact ⟨_, _, h.setMsg ht hm⟩
    | link mm prev => exact ⟨_, _, h.link ht hm⟩
    | awaitMsg mm => exact ⟨_, _, h.awaitMsg ht hm⟩
    | loadTail mm => exact h.loadTail ht hm
    | compareExchange mm => exact h.compareExchange ht hm
    | awaitTail mm => exact h.awaitTail ht hm
    | storeMsg mm succ => exact ⟨_, _, h.storeMsg ht hm⟩
    | held => exact ⟨_, _, h.held ht hm⟩
    | clearMsg succ => exact ⟨_, _, h.clearMsg ht hm⟩

/-! ## Every run -/

theorem Reached.inv (h : Reached s) : ∃ q w, Inv s q w := by
  apply Reachable.invariant (J := fun s => ∃ q w, Inv s q w) ?_ ?_ h
  · rintro s ⟨mem, rfl⟩
    exact ⟨[], none, .start mem⟩
  · intro s s' ⟨q, w, hi⟩ hs
    exact hi.step hs

/-- Every access is to the lock, or to the node of a call under way. -/
theorem Inv.access {x : Access ι A (Mcshlock ι A) (Pc ι A)} (h : Inv s q w)
    (hx : code (s.pc t) = some x) :
    x.target ≠ .null ∧ ∀ r, x.target = .node r → mcshlock.Running s r := by
  have hk := h.known t
  have hown : ∀ mm, (s.pc t).node = some mm →
      (Ptr.node mm ≠ .null ∧ ∀ r, Ptr.node mm = .node r → mcshlock.Running s r) := by
    intro mm hmm
    refine ⟨by simp, fun r hr => ?_⟩
    rw [← Ptr.node.inj hr]
    exact h.queue.live.running hmm
  cases ht : s.pc t with
  | out =>
    rw [ht] at hx
    cases hx
  | initTail mm | initMsg mm | awaitMsg mm | loadTail mm | awaitTail mm =>
    rw [ht] at hx
    obtain rfl := Option.some.inj hx
    exact hown mm (congrArg Pc.node ht)
  | exchange mm | awaitLock mm | setMsg mm | compareExchange mm | storeMsg mm succ | held =>
    rw [ht] at hx
    obtain rfl := Option.some.inj hx
    exact ⟨by simp, by simp⟩
  | link mm prev =>
    rw [ht] at hx hk
    obtain rfl := Option.some.inj hx
    obtain ⟨-, x, rfl⟩ := hk
    refine ⟨by simp, fun r hr => ?_⟩
    rw [← Ptr.node.inj hr]
    exact h.queue.running (h.queue.mem_of_links (congrArg Pc.queued ht) (congrArg Pc.links ht))
  | clearMsg succ =>
    rw [ht] at hx hk
    obtain rfl := Option.some.inj hx
    refine ⟨Succ.ne_null hk.1, fun r hr => ?_⟩
    rcases hk.1 with hs | ⟨y, hs, hy, -⟩
    · rw [hs] at hr
      cases hr
    · rw [← Ptr.node.inj (hs.symm.trans hr)]
      exact h.queue.running (List.mem_of_head? hy)

/-- **`fjx_mcshlock` is a lock, and a fair one.** In every state reached from `FJX_MCSH_LOCK_INIT`
at most one thread is between the return from `fjx_mcshlock_lock` and the store of
`fjx_mcshlock_unlock`; the calls have got the lock in the order in which they exchanged `tail`; no
next access of a thread is through a null pointer, and none is to the node of a call that has
returned. -/
theorem mcshlock_correct (h : Reached s) :
    (∀ t u, (s.pc t).Holds → (s.pc u).Holds → t = u) ∧ s.entered <+: s.exchanged ∧
    ∀ t x, mcshlock.code (s.pc t) = some x → x.target ≠ .null ∧
      ∀ r, x.target = .node r → mcshlock.Running s r ∧ r ∉ s.returned := by
  obtain ⟨q, w, hi⟩ := h.inv
  refine ⟨fun t u ht hu => hi.one t u (active_of_holds ht) (active_of_holds hu), ?_, ?_⟩
  · rw [hi.fifo]
    exact List.prefix_append _ _
  · intro t x hx
    obtain ⟨hne, hrun⟩ := hi.access hx
    exact ⟨hne, fun r hr => ⟨hrun r hr, hi.queue.live.not_returned (hrun r hr)⟩⟩

/-- The second of two callers links itself after the first one failed to close the queue, and gets
the lock from it; the first one queues again, with its node where the old one was. -/
theorem mcshlock_correct_run : ∃ s : State Bool Nat, Reached s ∧ s.pc true = .held ∧
    s.pc false = .awaitMsg ⟨false, 2, 10⟩ ∧ s.returned = [⟨false, 0, 10⟩, ⟨true, 1, 20⟩] ∧
    s.entered <+: s.exchanged := by
  have h₀ : Reached (mcshlock.start init fun _ => init : State Bool Nat) := .start ⟨_, rfl⟩
  have h₁ := h₀.next (.call 10 (t := false) rfl (by intro u r hr; cases hr))
  have h₂ := h₁.run (mcshlock.moves_run (rfl : mcshlock.moves _
    [false, false, false, false, false, false] = some _))
  have h₃ := h₂.next (.call 20 (t := true) rfl (by
    intro u r hr
    cases u with
    | false =>
      obtain rfl : _ = r := Option.some.inj hr
      decide
    | true => cases hr))
  have h₄ := h₃.run (mcshlock.moves_run (rfl : mcshlock.moves _
    [true, true, true, false, true, false, false, false, false] = some _))
  have h₅ := h₄.next (.call 10 (t := false) rfl (by
    intro u r hr
    cases u with
    | false => cases hr
    | true =>
      obtain rfl : _ = r := Option.some.inj hr
      decide))
  have h₆ := h₅.run (mcshlock.moves_run (rfl : mcshlock.moves _
    [false, false, false, true, true, true, false, true, true] = some _))
  exact ⟨_, h₆, rfl, rfl, rfl, (mcshlock_correct h₆).2.1⟩

end Spin.Mcshlock
