import FjxFiber.Lib.QueueLock
import FjxFiber.Spin.QspinlockSteps

/-!
# Nobody is forgotten by `fjx_qspinlock`

As for `fjx_mcshlock`, it has to be known that the queue goes on: a call that waits in its node has
been let go on, or somebody is about to do so, or its predecessor knows it (`Told`), and who could
not close the queue has a successor. Every step keeps this (`Going.step`). Hence some thread is
past its wait as long as the queue is not empty (`Inv.exists_active`).
-/

set_option autoImplicit false

namespace Spin.Qspinlock

open Lib Lib.StackNodes

variable {ι A : Type*} [DecidableEq ι] [DecidableEq A] {s s' : State ι A} {q : List (Ref ι A)}
  {w : Option (Ref ι A)} {t : ι} {mm : Ref ι A}

/-! ## What an access does to the others -/

/-- The node of another call is written only to link a call behind it, or to let it go on. -/
theorem Inv.mem_move (h : Inv s q w) (hm : qspinlock.move s t = some s') {r : Ref ι A}
    (hr : qspinlock.Running s r) (hrt : r.thread ≠ t) :
    s'.mem r.addr = s.mem r.addr ∨
    (∃ mm, s.pc t = .link mm (.node r) ∧
      s'.mem r.addr = { s.mem r.addr with next := .node mm }) ∨
    (∃ mm, s.pc t = .pass mm (.node r)) ∧ s'.mem r.addr = { s.mem r.addr with locked := 1 } := by
  have hown : ∀ mm, (s.pc t).node = some mm → mm ≠ r := by
    intro mm hmm he
    rw [← he] at hrt
    exact hrt (h.queue.live.own t mm hmm).1
  have hrun : ∀ x r, qspinlock.code (s.pc t) = some x → x.target = .node r →
      qspinlock.Running s r := fun x r hx hr => (h.access hx).2 r hr
  obtain hsame | ⟨x, hx, htarget, hmem⟩ := StackNodes.mem_move hm h.queue.live hrun hr
  · exact .inl hsame
  refine .inr ?_
  cases hp : s.pc t with
  | out =>
    rw [hp] at hx
    cases hx
  | initNext mm | initLocked mm | awaitNode mm | loadNext mm | awaitNext mm =>
    rw [hp] at hx
    obtain rfl := Option.some.inj hx
    exact absurd (Ptr.node.inj htarget) (hown mm (congrArg Pc.node hp))
  | exchange mm | awaitLock mm | setLocked mm | compareExchange mm | held =>
    rw [hp] at hx
    obtain rfl := Option.some.inj hx
    cases htarget
  | link mm prev =>
    rw [hp] at hx
    obtain rfl := Option.some.inj hx
    obtain rfl : prev = .node r := htarget
    exact .inl ⟨mm, rfl, hmem⟩
  | pass mm next =>
    rw [hp] at hx
    obtain rfl := Option.some.inj hx
    obtain rfl : next = .node r := htarget
    exact .inr ⟨⟨mm, rfl⟩, hmem⟩

/-- Who writes to `lock->next`, and how. -/
theorem Inv.next_move (h : Inv s q w) (hm : qspinlock.move s t = some s') :
    s'.lock.next = s.lock.next ∨ (∃ mm, s.pc t = .exchange mm ∧ s'.lock.next = .node mm) ∨
    s'.lock.next = .null := by
  obtain hsame | ⟨x, hx, htarget, hlock⟩ := lock_move hm
  · exact .inl (by rw [hsame])
  have hk := h.known t
  cases hp : s.pc t with
  | out =>
    rw [hp] at hx
    cases hx
  | initNext mm | initLocked mm | awaitNode mm | loadNext mm | awaitNext mm =>
    rw [hp] at hx
    obtain rfl := Option.some.inj hx
    cases htarget
  | awaitLock mm | setLocked mm | held =>
    rw [hp] at hx
    obtain rfl := Option.some.inj hx
    exact .inl (by rw [hlock])
  | exchange mm =>
    rw [hp] at hx
    obtain rfl := Option.some.inj hx
    exact .inr (.inl ⟨mm, rfl, by rw [hlock]⟩)
  | link mm prev =>
    rw [hp] at hx hk
    obtain rfl := Option.some.inj hx
    obtain ⟨-, y, rfl⟩ := hk
    cases htarget
  | pass mm next =>
    rw [hp] at hx hk
    obtain rfl := Option.some.inj hx
    obtain ⟨y, rfl, -⟩ := hk
    cases htarget
  | compareExchange mm =>
    rw [hp] at hx
    obtain rfl := Option.some.inj hx
    dsimp only at hlock
    split at hlock
    · exact .inr (.inr (by rw [hlock]))
    · exact .inl (by rw [hlock])

/-- Who writes to `lock->locked`, and how. -/
theorem Inv.locked_move (h : Inv s q w) (hm : qspinlock.move s t = some s') :
    s'.lock.locked = s.lock.locked ∨ (∃ mm, s.pc t = .setLocked mm) ∨
    s.pc t = .held ∧ s'.lock.locked = 0 := by
  obtain hsame | ⟨x, hx, htarget, hlock⟩ := lock_move hm
  · exact .inl (by rw [hsame])
  have hk := h.known t
  cases hp : s.pc t with
  | out =>
    rw [hp] at hx
    cases hx
  | initNext mm | initLocked mm | awaitNode mm | loadNext mm | awaitNext mm =>
    rw [hp] at hx
    obtain rfl := Option.some.inj hx
    cases htarget
  | awaitLock mm | exchange mm =>
    rw [hp] at hx
    obtain rfl := Option.some.inj hx
    exact .inl (by rw [hlock])
  | setLocked mm => exact .inr (.inl ⟨mm, rfl⟩)
  | held =>
    rw [hp] at hx
    obtain rfl := Option.some.inj hx
    exact .inr (.inr ⟨rfl, by rw [hlock]⟩)
  | link mm prev =>
    rw [hp] at hx hk
    obtain rfl := Option.some.inj hx
    obtain ⟨-, y, rfl⟩ := hk
    cases htarget
  | pass mm next =>
    rw [hp] at hx hk
    obtain rfl := Option.some.inj hx
    obtain ⟨y, rfl, -⟩ := hk
    cases htarget
  | compareExchange mm =>
    rw [hp] at hx
    obtain rfl := Option.some.inj hx
    dsimp only at hlock
    refine .inl ?_
    split at hlock <;> rw [hlock]

/-! ## The queue goes on -/

/-- The call `y`, which waits in its node, is not forgotten: it has been let go on, somebody is
about to do so, or its predecessor knows it. -/
def Told (s : State ι A) (y : Ref ι A) : Prop :=
  (s.mem y.addr).locked ≠ 0 ∨ (∃ u mm, s.pc u = .pass mm (.node y)) ∨ layout.Known s y

structure Going (s : State ι A) : Prop where
  told : ∀ y, s.pc y.thread = .awaitNode y → Told s y
  /-- Who could not close the queue has a successor. -/
  more : ∀ t mm, s.pc t = .awaitNext mm → s.lock.next ≠ .node mm

theorem Going.start (mem : A → Mcslock ι A) : Going (qspinlock.start init mem) where
  told y hy := by cases hy
  more t mm ht := by cases ht

/-- An access of the predecessor: it passes the queue on when it leaves it. -/
theorem Inv.told_pred (h : Inv s q w) (hm : qspinlock.move s t = some s') {x y : Ref ι A}
    (hx : (s.pc t).queued = some x) (hxy : (s.mem x.addr).next = .node y) : Told s' y := by
  have hthread := h.queue.thread_eq hx
  have hne : (s.mem x.addr).next ≠ .null := by simp [hxy]
  -- it is where it was in the queue, and its node is as it was
  have hstay : ∀ p, s'.pc = Function.update s.pc t p → p.queued = some x →
      (s'.mem x.addr).next = (s.mem x.addr).next → Told s' y := by
    intro p hpc hp hmem
    refine .inr (.inr ⟨x, ?_, hmem.trans hxy⟩)
    rw [hpc, hthread, Function.update_self]
    exact hp
  cases hp : s.pc t with
  | out | initNext mm | initLocked mm | exchange mm | pass mm next | held =>
    rw [hp] at hx
    cases hx
  | awaitLock mm | setLocked mm | awaitNode mm =>
    rw [hp] at hx
    obtain rfl : mm = x := Option.some.inj hx
    have hv := qspinlock.moved rfl hp rfl hm
    refine hstay _ hv.pc ?_ (by rw [hv.mem]; simp [State.store])
    dsimp only
    first
    | rfl
    | split <;> rfl
  | link mm prev =>
    rw [hp] at hx
    obtain rfl : mm = x := Option.some.inj hx
    have hk := h.known t
    rw [hp] at hk
    obtain ⟨-, z, rfl⟩ := hk
    have hv := qspinlock.moved rfl hp rfl hm
    refine hstay _ hv.pc rfl ?_
    rw [hv.mem]
    dsimp only [State.store]
    rw [Function.update_of_ne]
    intro ha
    have hz := h.queue.mem_of_links (congrArg Pc.queued hp) (congrArg Pc.links hp)
    have hmm : qspinlock.Running s mm := h.queue.live.running (congrArg Pc.node hp)
    obtain rfl := h.queue.live.eq_of_addr hmm (h.queue.running hz) ha
    exact hne (h.queue.unset_of_links (congrArg Pc.queued hp) (congrArg Pc.links hp))
  | loadNext mm | awaitNext mm =>
    rw [hp] at hx
    obtain rfl : mm = x := Option.some.inj hx
    have hv := qspinlock.moved rfl hp rfl hm
    refine .inr (.inl ⟨t, mm, ?_⟩)
    rw [hv.pc, Function.update_self]
    dsimp only
    rw [if_neg hne, hxy]
  | compareExchange mm =>
    rw [hp] at hx
    obtain rfl : mm = x := Option.some.inj hx
    have hv := qspinlock.moved rfl hp rfl hm
    have hpc := hv.pc
    dsimp only at hpc
    split at hpc
    case isTrue hsame =>
      have hin : mm ∈ q := (h.queue.mem mm).2 (by rw [hthread, hp]; rfl)
      exact absurd (h.queue.unset_of_tail (h.queue.tail_eq hin hsame)) hne
    case isFalse => exact hstay _ hpc rfl (by rw [hv.mem]; rfl)

/-- A step of another thread. -/
theorem Inv.told_other (h : Inv s q w) (hm : qspinlock.move s t = some s') {y : Ref ι A}
    (hy : s.pc y.thread = .awaitNode y) (hyt : y.thread ≠ t) (htold : Told s y) : Told s' y := by
  have hrun : qspinlock.Running s y := congrArg Pc.node hy
  rcases htold with hset | ⟨u, mm, hu⟩ | ⟨x, hx, hxy⟩
  · -- nobody takes that back
    refine .inl ?_
    rcases h.mem_move hm hrun hyt with hmem | ⟨_, -, hmem⟩ | ⟨-, hmem⟩ <;> rw [hmem]
    · exact hset
    · exact hset
    · exact Int.one_ne_zero
  · by_cases hut : u = t
    · subst hut
      have hv := qspinlock.moved rfl hu rfl hm
      refine .inl ?_
      rw [hv.mem]
      simp [State.store]
    · exact .inr (.inl ⟨u, mm, (pc_move hm hut).trans hu⟩)
  · have hrunx : qspinlock.Running s x := node_of_queued hx
    by_cases hxt : x.thread = t
    · rw [hxt] at hx
      exact h.told_pred hm hx hxy
    · refine .inr (.inr ⟨x, by rw [pc_move hm hxt]; exact hx, ?_⟩)
      show (s'.mem x.addr).next = .node y
      rcases h.mem_move hm hrunx hxt with hmem | ⟨mm, hp, -⟩ | ⟨-, hmem⟩
      · rw [hmem]
        exact hxy
      · -- nobody is about to link to `x`
        have hun := h.queue.unset_of_links (congrArg Pc.queued hp) (congrArg Pc.links hp)
        rw [hxy] at hun
        cases hun
      · rw [hmem]
        exact hxy

/-- A call comes to wait in its node by linking itself, and stays until it is let go on. -/
theorem awaitNode_move (hm : qspinlock.move s t = some s') {y : Ref ι A}
    (hy : s'.pc t = .awaitNode y) :
    (∃ prev, s.pc t = .link y prev) ∨
      s.pc t = .awaitNode y ∧ s'.pc = s.pc ∧ s'.mem = s.mem := by
  cases hp : s.pc t with
  | out =>
    obtain ⟨x, n, hx, -⟩ := (Program.move_eq_some _).1 hm
    rw [hp] at hx
    cases hx
  | link mm prev =>
    obtain ⟨x, n, hx, hn, rfl⟩ := (Program.move_eq_some _).1 hm
    rw [hp] at hx
    obtain rfl := Option.some.inj hx
    simp only [Program.perform, Function.update_self, Pc.awaitNode.injEq] at hy
    exact .inl ⟨prev, by rw [hy]⟩
  | awaitNode mm =>
    have hv := qspinlock.moved rfl hp rfl hm
    have hpc := hv.pc
    dsimp only at hpc
    rw [hpc, Function.update_self] at hy
    split at hy
    case isTrue => cases hy
    case isFalse hne =>
      rw [if_neg hne, ← hp, Function.update_eq_self] at hpc
      refine .inr ⟨hy, hpc, ?_⟩
      rw [hv.mem]
      simp [State.store]
  | pass mm next =>
    obtain ⟨x, n, hx, hn, rfl⟩ := (Program.move_eq_some _).1 hm
    rw [hp] at hx
    obtain rfl := Option.some.inj hx
    simp [Program.perform] at hy
  | compareExchange mm =>
    have hv := qspinlock.moved rfl hp rfl hm
    have hpc := hv.pc
    dsimp only at hpc
    rw [hpc, Function.update_self] at hy
    split at hy <;> cases hy
  | _ =>
    have hv := qspinlock.moved rfl hp rfl hm
    rw [hv.pc, Function.update_self] at hy
    dsimp only at hy
    try split at hy
    all_goals cases hy

theorem Going.told_move (h : Inv s q w) (hg : Going s) (hm : qspinlock.move s t = some s')
    {y : Ref ι A} (hy : s'.pc y.thread = .awaitNode y) : Told s' y := by
  by_cases hyt : y.thread = t
  case neg =>
    rw [pc_move hm hyt] at hy
    exact h.told_other hm hy hyt (hg.told y hy)
  rw [hyt] at hy
  rcases awaitNode_move hm hy with ⟨prev, hp⟩ | ⟨hp, hpc, hmem⟩
  · -- it has just linked itself
    have hk := h.known t
    rw [hp] at hk
    obtain ⟨-, x, rfl⟩ := hk
    have hv := qspinlock.moved rfl hp rfl hm
    have hx := h.queue.mem_of_links (congrArg Pc.queued hp) (congrArg Pc.links hp)
    refine .inr (.inr ⟨x, ?_, ?_⟩)
    · rw [same_goto (f := layout.queued) hv.pc (by rw [hp]; rfl)]
      exact (h.queue.mem x).1 hx
    · show (s'.mem x.addr).next = .node y
      rw [hv.mem]
      simp [State.store]
  · have hold := hg.told y (by rw [hyt]; exact hp)
    unfold Told Layout.Known Layout.next at hold ⊢
    rw [hpc, hmem]
    exact hold

theorem Going.more_move (h : Inv s q w) (hg : Going s) (hm : qspinlock.move s t = some s') {u : ι}
    (hu : s'.pc u = .awaitNext mm) : s'.lock.next ≠ .node mm := by
  by_cases hut : u = t
  case neg =>
    rw [pc_move hm hut] at hu
    have hmm := (h.queue.live.own u mm (congrArg Pc.node hu)).1
    rcases h.next_move hm with hnext | ⟨mm', hp, hnext⟩ | hnext <;> rw [hnext]
    · exact hg.more u mm hu
    · have hmm' := (h.queue.live.own t mm' (congrArg Pc.node hp)).1
      intro he
      rw [Ptr.node.inj he, hmm] at hmm'
      exact hut hmm'
    · simp
  rw [hut] at hu
  cases hp : s.pc t with
  | out =>
    obtain ⟨x, n, hx, -⟩ := (Program.move_eq_some _).1 hm
    rw [hp] at hx
    cases hx
  | compareExchange mm' =>
    have hv := qspinlock.moved rfl hp rfl hm
    have hlock := hv.lock
    have hpc := hv.pc
    dsimp only at hpc hlock
    rw [hpc, Function.update_self] at hu
    split at hu
    case isTrue => cases hu
    case isFalse hdiff =>
      rw [if_neg hdiff] at hlock
      obtain rfl := Pc.awaitNext.inj hu
      rw [hlock]
      intro he
      dsimp only [State.store] at he
      rw [he] at hdiff
      simp [Ptr.same] at hdiff
  | awaitNext mm' =>
    have hv := qspinlock.moved rfl hp rfl hm
    have hlock : s'.lock = s.lock := hv.lock
    rw [hv.pc, Function.update_self] at hu
    dsimp only at hu
    split at hu
    case isFalse => cases hu
    case isTrue =>
      rw [hlock]
      exact hg.more t mm (by rw [hp]; exact hu)
  | link mm' prev | pass mm' prev =>
    obtain ⟨x, n, hx, hn, rfl⟩ := (Program.move_eq_some _).1 hm
    rw [hp] at hx
    obtain rfl := Option.some.inj hx
    simp [Program.perform] at hu
  | _ =>
    have hv := qspinlock.moved rfl hp rfl hm
    rw [hv.pc, Function.update_self] at hu
    dsimp only at hu
    try split at hu
    all_goals cases hu

theorem Going.around (h : Inv s q w) (hg : Going s) (hs : qspinlock.Turn s none s')
    (hlock : s'.lock = s.lock) (hpc : ∀ u, s'.pc u = s.pc u ∨ ∃ r, s'.pc u = .initNext r) :
    Going s' := by
  have hback : ∀ {u p}, s'.pc u = p → (∀ r, p ≠ .initNext r) → s.pc u = p := by
    intro u p hu hp
    rcases hpc u with he | ⟨r, he⟩
    · rw [← he, hu]
    · exact absurd (hu.symm.trans he) (hp r)
  constructor
  · intro y hy
    have hy := hback hy (by simp)
    rcases hg.told y hy with hset | ⟨u, mm, hu⟩ | hknown
    · refine .inl ?_
      rw [(hs.around (busy_of_node lawful (congrArg Pc.node hy))).2.2 y (congrArg Pc.node hy)]
      exact hset
    · refine .inr (.inl ⟨u, mm, ?_⟩)
      rw [(hs.around (busy_of_node lawful (congrArg Pc.node hu))).1, hu]
    · exact .inr (.inr (h.queue.known_around lawful hs hknown))
  · intro u mm hu
    rw [hlock]
    exact hg.more u mm (hback hu (by simp))

theorem Going.step (h : Inv s q w) (hg : Going s) (hs : qspinlock.Step s s') : Going s' := by
  cases hs with
  | @access _ t hm =>
    exact ⟨fun y hy => hg.told_move h hm hy, fun u mm hu => hg.more_move h hm hu⟩
  | @call t a ht ha =>
    refine hg.around h (.call a ht ha) rfl fun u => ?_
    by_cases hut : u = t
    · exact .inr ⟨_, by rw [hut]; exact Function.update_self _ _ _⟩
    · exact .inl (Function.update_of_ne hut _ _)
  | other a n ha => exact hg.around h (.other a n ha) rfl fun _ => .inl rfl

theorem Reached.going (h : Reached s) : Going s := by
  apply Reachable.invariant_from (I := fun s => ∃ q w, Inv s q w) ?_ ?_ ?_ h
  · exact fun _ hs => Reached.inv hs
  · rintro s ⟨mem, rfl⟩
    exact .start mem
  · rintro s s' ⟨q, w, hi⟩ hg hs
    exact hg.step hi hs

/-- Some thread is past its wait as long as the queue is not empty. -/
theorem Inv.exists_active (h : Inv s q w) (hg : Going s) (hq : q ≠ []) :
    ∃ t, Active s (s.pc t) := by
  cases q with
  | nil => exact absurd rfl hq
  | cons y r =>
    have hyq := (h.queue.mem y).1 (.head _)
    have hky := h.known y.thread
    cases hp : s.pc y.thread with
    | link z prev =>
      rw [hp] at hky
      obtain ⟨-, x, rfl⟩ := hky
      exact absurd (by rw [hp]; rfl) (h.queue.head_not_links (x := x) rfl)
    | awaitNode z =>
      rw [hp] at hyq
      obtain rfl : z = y := Option.some.inj hyq
      rcases hg.told z hp with hset | ⟨u, mm, hu⟩ | hknown
      · exact ⟨z.thread, by rw [hp]; exact hset⟩
      · exact ⟨u, by rw [hu]; trivial⟩
      · exact absurd hknown (h.queue.head_unknown rfl)
    | awaitLock z | setLocked z | loadNext z | compareExchange z | awaitNext z =>
      exact ⟨y.thread, by rw [hp]; trivial⟩
    | out | initNext z | initLocked z | exchange z | pass z v | held =>
      rw [hp] at hyq
      cases hyq

end Spin.Qspinlock
