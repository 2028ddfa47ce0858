import FjxFiber.Spin.QspinlockGoing

/-!
# `fjx_qspinlock` serves every caller

As a lock `fjx_qspinlock` is first come, first served (`qspinlock_refines`), and in a fair run every
call of `fjx_qspinlock_lock` returns with the lock (`qspinlock_served`). Two things have to go on
for that: the queue, until its head waits for the flag, and the thread that has the lock, which
clears it (`Due`). A call that has the lock has to leave the queue before it returns (`Leaves`).
-/

set_option autoImplicit false

namespace Spin.Qspinlock

open Lib Lib.StackNodes

variable {ι A : Type*} [DecidableEq ι] [DecidableEq A] {s s' : State ι A} {q : List (Ref ι A)}
  {w : Option (Ref ι A)} {t : ι} {mm : Ref ι A}

/-! ## The lock from outside -/

/-- The lock is released by the access of `fjx_qspinlock_unlock`. -/
def face : Face (qspinlock : Program ι A (Mcslock ι A) (Pc ι A)) where
  Holds := Pc.Holds
  releases
    | .held => true
    | _ => false
  out h := h
  enter _ h := h
  exchanges p hp := by
    cases p <;> simp_all [qspinlock, Pc.node]
  enters p hp := by
    cases p <;> simp_all [qspinlock, Pc.node]
  enter_holds p x hx hp n := by
    cases p <;> simp [qspinlock] at hp
    obtain rfl := Option.some.inj hx
    trivial
  release_holds p x hx _ hp := by
    cases p <;> simp at hp
    obtain rfl := Option.some.inj hx
    exact ⟨trivial, fun _ => rfl⟩
  stay p x hx he hr n := by
    cases p <;> simp only [qspinlock, code, Option.some.injEq, reduceCtorEq] at hx he hr <;>
      subst hx
    all_goals
      dsimp only
      try split
      all_goals simp [Pc.Holds]

theorem Inv.grants (h : Inv s q w) : face.Grants s where
  live := h.queue.live
  one := h.flag.one
  free t u ht hu := by
    cases hp : s.pc t with
    | setLocked mm =>
      have hk := h.known t
      rw [hp] at hk
      rcases h.flag.locked with ⟨-, hno⟩ | ⟨hset, -⟩
      · exact hno u hu
      · rw [hk.2] at hset
        cases hset
    | _ => simp [qspinlock, hp] at ht
  first t mm ht hmm := by
    cases hp : s.pc t with
    | setLocked mm' =>
      rw [hp] at hmm
      obtain rfl : mm' = mm := Option.some.inj hmm
      have hk := h.known t
      rw [hp] at hk
      obtain ⟨r, rfl⟩ := List.head?_eq_some_iff.1 hk.1
      have hw : w = none := h.acquired_none (by rw [hp]; trivial) (by rw [hp]; rfl)
      obtain ⟨e, he, hx⟩ := h.fifo
      rw [hw] at he
      exact ⟨r, by rw [hx, he]; simp⟩
    | _ => simp [qspinlock, hp] at ht

/-- As long as a call waits there is one in the queue that does not have the lock. -/
theorem Inv.waits (h : Inv s q w) (hlt : s.entered.length < s.exchanged.length) :
    w.toList.length < q.length := by
  obtain ⟨e, he, hx⟩ := h.fifo
  rw [he, hx, List.length_append, List.length_append] at hlt
  omega

/-! ## Whose turn it is -/

/-- The thread brings the lock forward with its next access, and so many have to until a call gets
the lock. -/
def Due (s : State ι A) (k : Nat) (t : ι) : Prop :=
  match s.pc t with
  | .loadNext _ => k = 8
  | .compareExchange _ => k = 7
  | .link _ prev => (∃ x, prev = .node x ∧ s.pc x.thread = .awaitNext x) ∧ k = 6
  | .awaitNext mm => (s.mem mm.addr).next ≠ .null ∧ k = 5
  | .pass _ _ => k = 4
  | .awaitNode mm => (s.mem mm.addr).locked ≠ 0 ∧ k = 3
  | .held => (∃ u mm, s.pc u = .awaitLock mm) ∧ k = 2
  | .awaitLock _ => s.lock.locked = 0 ∧ k = 1
  | .setLocked _ => k = 0
  | _ => False

omit [DecidableEq ι] [DecidableEq A] in
theorem Due.not_out {k : Nat} (ht : Due s k t) : s.pc t ≠ .out := by
  intro he
  unfold Due at ht
  rw [he] at ht
  exact ht

/-- Who waits for a link waits for a thread that is about to set it. -/
theorem Inv.linker (h : Inv s q w) (hg : Going s) (ht : s.pc t = .awaitNext mm)
    (hnext : (s.mem mm.addr).next = .null) : ∃ u z, s.pc u = .link z (.node mm) := by
  have hk := h.known t
  rw [ht] at hk
  obtain ⟨r, rfl⟩ := List.head?_eq_some_iff.1 hk
  have hmore := hg.more t mm ht
  cases r with
  | nil => exact absurd h.queue.queue.tail hmore
  | cons y r =>
    have hhead := h.queue.second_ne
    have hyq := (h.queue.mem y).1 (by simp)
    have hky := h.known y.thread
    cases hp : s.pc y.thread with
    | awaitLock z | loadNext z | compareExchange z | awaitNext z =>
      rw [hp] at hyq hky
      rw [Option.some.inj hyq] at hky
      exact absurd hky hhead
    | setLocked z =>
      rw [hp] at hyq hky
      rw [Option.some.inj hyq] at hky
      exact absurd hky.1 hhead
    | out | initNext z | initLocked z | exchange z | pass z v | held =>
      rw [hp] at hyq
      cases hyq
    | link z prev =>
      rw [hp] at hky
      obtain ⟨-, x, rfl⟩ := hky
      obtain rfl := h.queue.links_second (z := x) (by rw [hp]; rfl)
      exact ⟨y.thread, z, hp⟩
    | awaitNode z =>
      rw [hp] at hyq hky
      obtain rfl : z = y := Option.some.inj hyq
      exfalso
      rcases hg.told z hp with hset | ⟨u, mm', hu⟩ | hknown
      · exact hhead (hky hset)
      · have hku := h.known u
        rw [hu] at hku
        obtain ⟨x, he, hx, -⟩ := hku
        rw [← Ptr.node.inj he] at hx
        exact hhead hx
      · have hxz : (s.mem mm.addr).next = .node z := h.queue.known_second hknown
        rw [hnext] at hxz
        cases hxz

theorem Inv.due_awaitNext (h : Inv s q w) (hg : Going s) (ht : s.pc t = .awaitNext mm) :
    ∃ k u, Due s k u ∧ k ≤ 6 := by
  by_cases hnext : (s.mem mm.addr).next = .null
  case neg => exact ⟨5, t, by unfold Due; rw [ht]; exact ⟨hnext, rfl⟩, by omega⟩
  obtain ⟨u, z, hu⟩ := h.linker hg ht hnext
  refine ⟨6, u, ?_, by omega⟩
  unfold Due
  rw [hu]
  refine ⟨⟨mm, rfl, ?_⟩, rfl⟩
  rw [(h.queue.live.own t mm (congrArg Pc.node ht)).1, ht]

/-- Who waits for the flag waits for the thread that has the lock. -/
theorem Inv.due_awaitLock (h : Inv s q w) (ht : s.pc t = .awaitLock mm) :
    ∃ k u, Due s k u ∧ k ≤ 2 := by
  rcases h.flag.locked with ⟨hfree, -⟩ | ⟨-, u, hu⟩
  · exact ⟨1, t, by unfold Due; rw [ht]; exact ⟨hfree, rfl⟩, by omega⟩
  · cases hp : s.pc u with
    | held =>
      exact ⟨2, u, by unfold Due; rw [hp]; exact ⟨⟨t, mm, ht⟩, rfl⟩, by omega⟩
    | loadNext mm' | compareExchange mm' | awaitNext mm' | pass mm' next =>
      -- only one thread is past its wait in the queue
      have hut := h.one u t (by rw [hp]; trivial) (by rw [ht]; trivial)
      rw [hut, ht] at hp
      cases hp
    | out | initNext mm' | initLocked mm' | exchange mm' | link mm' prev | awaitNode mm'
    | awaitLock mm' | setLocked mm' =>
      rw [hp] at hu
      exact hu.elim

/-- As long as a call waits it is somebody's turn. -/
theorem Inv.exists_due (h : Inv s q w) (hg : Going s)
    (hlt : s.entered.length < s.exchanged.length) : ∃ k t, Due s k t := by
  have hq : q ≠ [] := by
    intro he
    have hw := h.waits hlt
    rw [he] at hw
    simp at hw
  obtain ⟨t, ht⟩ := h.exists_active hg hq
  cases hp : s.pc t with
  | awaitNext mm =>
    obtain ⟨k, u, hu, -⟩ := h.due_awaitNext hg hp
    exact ⟨k, u, hu⟩
  | awaitLock mm =>
    obtain ⟨k, u, hu, -⟩ := h.due_awaitLock hp
    exact ⟨k, u, hu⟩
  | awaitNode mm =>
    rw [hp] at ht
    exact ⟨3, t, by unfold Due; rw [hp]; exact ⟨ht, rfl⟩⟩
  | setLocked mm => exact ⟨0, t, by unfold Due; rw [hp]⟩
  | loadNext mm => exact ⟨8, t, by unfold Due; rw [hp]⟩
  | compareExchange mm => exact ⟨7, t, by unfold Due; rw [hp]⟩
  | pass mm next => exact ⟨4, t, by unfold Due; rw [hp]⟩
  | out | initNext mm | initLocked mm | exchange mm | link mm prev | held =>
    rw [hp] at ht
    exact ht.elim

/-- A thread that has been linked to, or is to be, is so after another thread's access. -/
theorem Inv.link_other (h : Inv s q w) (hm : qspinlock.move s t = some s') {u : ι} {z : Ref ι A}
    (hu : s.pc u = .link z (.node mm)) (hmm : s.pc mm.thread = .awaitNext mm) :
    s'.pc mm.thread = .awaitNext mm := by
  by_cases hmt : mm.thread = t
  · -- it still finds no link
    rw [hmt] at hmm
    have hv := qspinlock.moved rfl hmm rfl hm
    have hun : (s.mem mm.addr).next = .null :=
      h.queue.unset_of_links (congrArg Pc.queued hu) (congrArg Pc.links hu)
    rw [hmt, hv.pc, Function.update_self]
    dsimp only
    rw [if_pos hun]
  · rw [pc_move hm hmt]
    exact hmm

theorem Inv.next_other (h : Inv s q w) (hm : qspinlock.move s t = some s') {u : ι} (hut : u ≠ t)
    (hu : (s.pc u).node = some mm) (hne : (s.mem mm.addr).next ≠ .null) :
    (s'.mem mm.addr).next ≠ .null := by
  have hmm := (h.queue.live.own u mm hu).1
  have hrun : qspinlock.Running s mm := h.queue.live.running hu
  rcases h.mem_move hm hrun (by rw [hmm]; exact hut) with hmem | ⟨_, -, hmem⟩ | ⟨-, hmem⟩ <;>
    rw [hmem]
  · exact hne
  · simp
  · exact hne

/-- Another thread's access leaves it the turn of the thread whose turn it is. -/
theorem Inv.due_other (h : Inv s q w) (hm : qspinlock.move s t = some s') {u : ι} {k : Nat}
    (hut : u ≠ t) (hu : Due s k u) : Due s' k u := by
  have hpc := pc_move hm hut
  unfold Due at hu ⊢
  rw [hpc]
  cases hp : s.pc u with
  | link mm prev =>
    rw [hp] at hu
    obtain ⟨⟨x, rfl, hx⟩, hk⟩ := hu
    exact ⟨⟨x, rfl, h.link_other hm hp hx⟩, hk⟩
  | awaitNext mm =>
    rw [hp] at hu
    exact ⟨h.next_other hm hut (congrArg Pc.node hp) hu.1, hu.2⟩
  | awaitNode mm =>
    rw [hp] at hu
    refine ⟨?_, hu.2⟩
    have hmm := (h.queue.live.own u mm (congrArg Pc.node hp)).1
    have hrun : qspinlock.Running s mm := h.queue.live.running (congrArg Pc.node hp)
    rcases h.mem_move hm hrun (by rw [hmm]; exact hut) with hmem | ⟨_, -, hmem⟩ | ⟨-, hmem⟩ <;>
      rw [hmem]
    · exact hu.1
    · exact hu.1
    · exact Int.one_ne_zero
  | held =>
    rw [hp] at hu
    obtain ⟨⟨v, mm, hv⟩, hk⟩ := hu
    refine ⟨⟨v, mm, ?_⟩, hk⟩
    by_cases hvt : v = t
    · -- it still finds the flag set
      subst hvt
      have hmoved := qspinlock.moved rfl hv rfl hm
      rw [hmoved.pc, Function.update_self]
      dsimp only
      rw [if_neg]
      intro hfree
      rcases h.flag.locked with ⟨-, hno⟩ | ⟨hset, -⟩
      · exact hno u (by rw [hp]; trivial)
      · rw [hfree] at hset
        cases hset
    · rw [pc_move hm hvt]
      exact hv
  | awaitLock mm =>
    rw [hp] at hu
    refine ⟨?_, hu.2⟩
    rcases h.locked_move hm with hlocked | ⟨mm', ht⟩ | ⟨-, hlocked⟩
    · rw [hlocked]
      exact hu.1
    · exact absurd (h.one u t (by rw [hp]; trivial) (by rw [ht]; trivial)) hut
    · exact hlocked
  | _ =>
    rw [hp] at hu
    exact hu

/-- **The thread whose turn it is brings the lock forward.** -/
theorem Inv.due_self {q' : List (Ref ι A)} {w' : Option (Ref ι A)} (h : Inv s q w)
    (h' : Inv s' q' w') (hg' : Going s') (hm : qspinlock.move s t = some s') {k : Nat}
    (hlt : s.entered.length < s.exchanged.length) (ht : Due s k t) :
    s.entered.length < s'.entered.length ∨ ∃ k' t', Due s' k' t' ∧ k' < k := by
  have hgoto : ∀ {j p}, s'.pc = Function.update s.pc t p →
      (s'.pc t = p → Due s' j t) → j < k →
      s.entered.length < s'.entered.length ∨ ∃ k' t', Due s' k' t' ∧ k' < k := by
    intro j p hpc hd hk
    refine .inr ⟨j, t, hd ?_, hk⟩
    rw [hpc, Function.update_self]
  unfold Due at ht
  cases hp : s.pc t with
  | out | initNext mm | initLocked mm | exchange mm =>
    rw [hp] at ht
    exact ht.elim
  | loadNext mm =>
    rw [hp] at ht
    have hv := qspinlock.moved rfl hp rfl hm
    have hpc := hv.pc
    dsimp only at hpc
    split at hpc
    · exact hgoto (j := 7) hpc (fun hpc => by unfold Due; rw [hpc]) (by omega)
    · exact hgoto (j := 4) hpc (fun hpc => by unfold Due; rw [hpc]) (by omega)
  | compareExchange mm =>
    rw [hp] at ht
    have hv := qspinlock.moved rfl hp rfl hm
    have hpc := hv.pc
    have hk := h.known t
    rw [hp] at hk
    dsimp only at hpc
    split at hpc
    case isTrue hsame =>
      -- nobody else is in the queue, so that nobody waits
      exfalso
      obtain ⟨r, rfl⟩ := List.head?_eq_some_iff.1 hk
      obtain rfl := h.queue.queue.eq_nil_of_tail (h.queue.tail_eq (.head _) hsame)
      have hw : w = some mm := by
        rw [h.acquired, h.queue.thread_eq (congrArg Pc.queued hp), hp]
        rfl
      have hwaits := h.waits hlt
      rw [hw] at hwaits
      simp at hwaits
    case isFalse =>
      have hpt : s'.pc t = .awaitNext mm := by rw [hpc, Function.update_self]
      obtain ⟨k', u, hu, hk⟩ := h'.due_awaitNext hg' hpt
      exact .inr ⟨k', u, hu, by omega⟩
  | link mm prev =>
    rw [hp] at ht
    obtain ⟨⟨x, rfl, hx⟩, rfl⟩ := ht
    have hv := qspinlock.moved rfl hp rfl hm
    have hxt : x.thread ≠ t := by
      intro he
      rw [he, hp] at hx
      cases hx
    refine .inr ⟨5, x.thread, ?_, by omega⟩
    unfold Due
    rw [pc_move hm hxt, hx]
    refine ⟨?_, rfl⟩
    rw [hv.mem]
    simp [State.store]
  | awaitNext mm =>
    rw [hp] at ht
    have hv := qspinlock.moved rfl hp rfl hm
    have hpc := hv.pc
    dsimp only at hpc
    rw [if_neg ht.1] at hpc
    exact hgoto (j := 4) hpc (fun hpc => by unfold Due; rw [hpc]) (by omega)
  | pass mm next =>
    rw [hp] at ht
    have hk := h.known t
    rw [hp] at hk
    obtain ⟨y, rfl, -, hyp, -⟩ := hk
    have hv := qspinlock.moved rfl hp rfl hm
    have hyt : y.thread ≠ t := by
      intro he
      rw [he, hp] at hyp
      cases hyp
    refine .inr ⟨3, y.thread, ?_, by omega⟩
    unfold Due
    rw [pc_move hm hyt, hyp]
    refine ⟨?_, rfl⟩
    rw [hv.mem]
    simp [State.store]
  | awaitNode mm =>
    rw [hp] at ht
    have hv := qspinlock.moved rfl hp rfl hm
    have hpc := hv.pc
    dsimp only at hpc
    rw [if_pos ht.1] at hpc
    have hp' : s'.pc t = .awaitLock mm := by rw [hpc, Function.update_self]
    obtain ⟨k', u, hu, hk⟩ := h'.due_awaitLock hp'
    exact .inr ⟨k', u, hu, by omega⟩
  | held =>
    rw [hp] at ht
    obtain ⟨⟨v, mm, hvp⟩, rfl⟩ := ht
    have hv := qspinlock.moved rfl hp rfl hm
    have hvt : v ≠ t := by
      intro he
      rw [he, hp] at hvp
      cases hvp
    refine .inr ⟨1, v, ?_, by omega⟩
    unfold Due
    rw [pc_move hm hvt, hvp, hv.lock]
    exact ⟨rfl, rfl⟩
  | awaitLock mm =>
    rw [hp] at ht
    have hv := qspinlock.moved rfl hp rfl hm
    have hpc := hv.pc
    dsimp only at hpc
    rw [if_pos ht.1] at hpc
    exact hgoto (j := 0) hpc (fun hpc => by unfold Due; rw [hpc]) (by omega)
  | setLocked mm =>
    have hv := qspinlock.moved rfl hp rfl hm
    have hentered : s'.entered = s.entered ++ [mm] := hv.entered
    refine .inl ?_
    rw [hentered]
    simp

/-- So does what is around the threads. -/
theorem Due.around {k : Nat} (hs : qspinlock.Turn s none s') (ht : Due s k t) : Due s' k t := by
  obtain ⟨hpc, hlock, hmem⟩ := hs.around ht.not_out
  unfold Due at ht ⊢
  rw [hpc, hlock]
  cases hp : s.pc t with
  | awaitNode mm | awaitNext mm =>
    rw [hp] at ht
    dsimp only
    rw [hmem mm (congrArg Pc.node hp)]
    exact ht
  | link mm prev =>
    rw [hp] at ht
    obtain ⟨⟨x, rfl, hx⟩, hk⟩ := ht
    refine ⟨⟨x, rfl, ?_⟩, hk⟩
    rw [(hs.around (busy_of_node lawful (congrArg Pc.node hx))).1, hx]
  | held =>
    rw [hp] at ht
    obtain ⟨⟨u, mm, hu⟩, hk⟩ := ht
    refine ⟨⟨u, mm, ?_⟩, hk⟩
    rw [(hs.around (busy_of_node lawful (congrArg Pc.node hu))).1, hu]
  | _ =>
    rw [hp] at ht
    exact ht

theorem Due.other {k : Nat} {u : ι} {o : Option ι} (h : Inv s q w) (hs : qspinlock.Turn s o s')
    (ho : o ≠ some u) (hu : Due s k u) : Due s' k u := by
  cases hs with
  | access hm => exact h.due_other hm (fun he => ho (congrArg some he.symm)) hu
  | call a ht ha => exact hu.around (.call a ht ha)
  | other a n ha => exact hu.around (.other a n ha)

/-! ## Leaving the queue -/

/-- The thread `t` has the lock and is to leave the queue; `u` brings it forward. -/
def Leaves (t : ι) (s : State ι A) (k : Nat) (u : ι) : Prop :=
  match s.pc t with
  | .loadNext _ => k = 4 ∧ u = t
  | .compareExchange _ => k = 3 ∧ u = t
  | .awaitNext mm =>
      k = 2 ∧ (s.mem mm.addr).next = .null ∧ (∃ z, s.pc u = .link z (.node mm)) ∨
      k = 1 ∧ (s.mem mm.addr).next ≠ .null ∧ u = t
  | .pass _ _ => k = 0 ∧ u = t
  | _ => False

theorem Inv.exists_leaves (h : Inv s q w) (hg : Going s) (ht : (s.pc t).Holds) :
    s.pc t = .held ∨ ∃ k u, Leaves t s k u := by
  cases hp : s.pc t with
  | held => exact .inl rfl
  | loadNext mm => exact .inr ⟨4, t, by unfold Leaves; rw [hp]; exact ⟨rfl, rfl⟩⟩
  | compareExchange mm => exact .inr ⟨3, t, by unfold Leaves; rw [hp]; exact ⟨rfl, rfl⟩⟩
  | pass mm next => exact .inr ⟨0, t, by unfold Leaves; rw [hp]; exact ⟨rfl, rfl⟩⟩
  | awaitNext mm =>
    refine .inr ?_
    by_cases hnext : (s.mem mm.addr).next = .null
    · obtain ⟨u, z, hu⟩ := h.linker hg hp hnext
      exact ⟨2, u, by unfold Leaves; rw [hp]; exact .inl ⟨rfl, hnext, z, hu⟩⟩
    · exact ⟨1, t, by unfold Leaves; rw [hp]; exact .inr ⟨rfl, hnext, rfl⟩⟩
  | out | initNext mm | initLocked mm | exchange mm | link mm prev | awaitNode mm | awaitLock mm
  | setLocked mm =>
    rw [hp] at ht
    exact ht.elim

/-- An access of `t` itself, unless it waits for a link. -/
theorem Inv.leaves_self (h' : Inv s q w) (hg' : Going s) {s₀ : State ι A}
    (hm : qspinlock.move s₀ t = some s) {k : Nat} (ht : Leaves t s₀ k t) :
    s.pc t = .held ∨ ∃ k' u', Leaves t s k' u' ∧ k' < k := by
  unfold Leaves at ht
  cases hp : s₀.pc t with
  | loadNext mm =>
    rw [hp] at ht
    have hpc := (qspinlock.moved rfl hp rfl hm).pc
    dsimp only at hpc
    split at hpc
    · refine .inr ⟨3, t, ?_, by omega⟩
      unfold Leaves
      rw [hpc, Function.update_self]
      exact ⟨rfl, rfl⟩
    · refine .inr ⟨0, t, ?_, by omega⟩
      unfold Leaves
      rw [hpc, Function.update_self]
      exact ⟨rfl, rfl⟩
  | compareExchange mm =>
    rw [hp] at ht
    have hpc := (qspinlock.moved rfl hp rfl hm).pc
    dsimp only at hpc
    split at hpc
    · exact .inl (by rw [hpc, Function.update_self])
    · have hpt : s.pc t = .awaitNext mm := by rw [hpc, Function.update_self]
      refine .inr ?_
      rcases h'.exists_leaves hg' (by rw [hpt]; trivial) with hheld | ⟨k', u, hu⟩
      · rw [hheld] at hpt
        cases hpt
      · refine ⟨k', u, hu, ?_⟩
        unfold Leaves at hu
        rw [hpt] at hu
        rcases hu with ⟨hk, -⟩ | ⟨hk, -⟩ <;> omega
  | awaitNext mm =>
    rw [hp] at ht
    rcases ht with ⟨-, -, z, hz⟩ | ⟨rfl, hnext, -⟩
    · cases hz
    · have hpc := (qspinlock.moved rfl hp rfl hm).pc
      dsimp only at hpc
      rw [if_neg hnext] at hpc
      refine .inr ⟨0, t, ?_, by omega⟩
      unfold Leaves
      rw [hpc, Function.update_self]
      exact ⟨rfl, rfl⟩
  | pass mm next =>
    obtain ⟨x, n, hx, hn, rfl⟩ := (Program.move_eq_some _).1 hm
    rw [hp] at hx
    obtain rfl := Option.some.inj hx
    exact .inl (Function.update_self _ _ _)
  | _ =>
    rw [hp] at ht
    exact ht.elim

/-- The waiting for a link: it is there at last, or it still is the same thread's turn. -/
theorem Inv.leaves_wait (h : Inv s q w) {o : Option ι} (hs : qspinlock.Turn s o s') {u : ι}
    {z : Ref ι A} (ht : s.pc t = .awaitNext mm) (hu : s.pc u = .link z (.node mm)) :
    Leaves t s' 1 t ∨ Leaves t s' 2 u ∧ o ≠ some u := by
  have hthread := (h.queue.live.own t mm (congrArg Pc.node ht)).1
  have hpt : s'.pc t = .awaitNext mm := by
    cases hs with
    | access hm =>
      rw [← hthread] at ht ⊢
      exact h.link_other hm hu ht
    | call a hu' ha =>
      rw [((Program.Turn.call a hu' ha).around (busy_of_node lawful (congrArg Pc.node ht))).1, ht]
    | other a n ha => exact ht
  by_cases hnext' : (s'.mem mm.addr).next = .null
  case neg =>
    refine .inl ?_
    unfold Leaves
    rw [hpt]
    exact .inr ⟨rfl, hnext', rfl⟩
  -- it has not been set
  have ho : o ≠ some u := by
    intro ho
    subst ho
    cases hs with
    | access hm =>
      rw [(qspinlock.moved rfl hu rfl hm).mem] at hnext'
      simp [State.store] at hnext'
  refine .inr ⟨?_, ho⟩
  unfold Leaves
  rw [hpt]
  exact .inl ⟨rfl, hnext', z, by rw [hs.pc ho (busy_of_node lawful (congrArg Pc.node hu)), hu]⟩

/-- A step of somebody else. -/
theorem Inv.leaves_other (h : Inv s q w) {o : Option ι} (hs : qspinlock.Turn s o s') {k : Nat}
    (ho : o ≠ some t) (ht : Leaves t s k t) : Leaves t s' k t := by
  have hbusy : qspinlock.Busy s t := by
    intro he
    unfold Leaves at ht
    rw [he] at ht
    exact ht
  have hpc := hs.pc ho hbusy
  unfold Leaves at ht ⊢
  rw [hpc]
  cases hp : s.pc t with
  | awaitNext mm =>
    rw [hp] at ht
    rcases ht with ⟨-, -, z, hz⟩ | ⟨hk, hnext, -⟩
    · cases hz
    · refine .inr ⟨hk, ?_, rfl⟩
      cases hs with
      | access hm =>
        exact h.next_other hm (fun he => ho (congrArg some he.symm)) (congrArg Pc.node hp) hnext
      | call a hu ha => exact hnext
      | other a n ha =>
        rw [((Program.Turn.other a n ha).around hbusy).2.2 mm (congrArg Pc.node hp)]
        exact hnext
  | _ =>
    rw [hp] at ht
    exact ht

/-! ## Every run -/

/-- Every run is seen as some list of events. -/
theorem Reached.traced (h : Reached s) :
    ∃ l, Traced (fun s => ∃ mem, s = qspinlock.start init mem) face.Step l s :=
  Reachable.traced (fun _ _ hs => face.exists_step hs) h

/-- **`fjx_qspinlock` is a first-come, first-served lock.** What is seen of a run from
`FJX_QSPINLOCK_INIT`, the calls that exchange the tail, those that set `lock->locked` and the
stores of `fjx_qspinlock_unlock`, is what such a lock may do; the lock is owned by the thread that
is between those two, and those wait whose calls have taken a place in the queue and not got it. -/
theorem qspinlock_refines {l : List (FifoLock.Event ι)}
    (h : Traced (fun s => ∃ mem, s = qspinlock.start init mem) face.Step l s) :
    ∃ a, readAll FifoLock.read FifoLock.start l = some a ∧ FifoLock.Kept l a ∧
      (∀ t, a.owner = some t ↔ (s.pc t).Holds) ∧
      ∃ r, s.exchanged = s.entered ++ r ∧ a.waiting = r.map Ref.thread := by
  obtain ⟨a, ha, hs⟩ := face.refines
    (fun s hs => by obtain ⟨mem, rfl⟩ := hs; exact ⟨init, mem, rfl⟩)
    (fun s hs => by obtain ⟨q, w, hi⟩ := Reached.inv hs; exact hi.grants) h
  exact ⟨a, ha, FifoLock.kept ha, hs.owner, hs.waiting⟩

/-- The second of two callers waits for the flag, which the first one still has set. -/
theorem qspinlock_refines_run : ∃ (l : List (FifoLock.Event Bool)) (s : State Bool Nat),
    Traced (fun s => ∃ mem, s = qspinlock.start init mem) face.Step l s ∧
    s.pc false = .held ∧ s.pc true = .awaitLock ⟨true, 1, 20⟩ ∧
    ∃ a, readAll FifoLock.read FifoLock.start l = some a ∧ a.owner = some false := by
  have h₀ : Traced (fun s => ∃ mem, s = qspinlock.start init mem) face.Step []
      (qspinlock.start init fun _ => init : State Bool Nat) := .start ⟨_, rfl⟩
  have h₁ := h₀.next (.call 10 (t := false) rfl (by intro u r hr; cases hr))
  have h₂ := h₁.next (.call 20 (t := true) rfl (by
    intro u r hr
    cases u with
    | false =>
      obtain rfl : _ = r := Option.some.inj hr
      decide
    | true => cases hr))
  obtain ⟨l, h₃⟩ := Face.traced_moves h₂ (rfl : qspinlock.moves _
    [false, false, false, false, false, true, true, true, true, false, false, true, true]
      = some _)
  obtain ⟨a, ha, -, ho, -⟩ := qspinlock_refines h₃
  exact ⟨l, _, h₃, rfl, rfl, a, ha, (ho false).2 trivial⟩

theorem Reached.logged (h : Reached s) : face.Logged s := by
  apply Reachable.invariant_from (I := fun s => Live qspinlock s) ?_ ?_ ?_ h
  · intro s hs
    obtain ⟨q, w, hi⟩ := Reached.inv hs
    exact hi.queue.live
  · rintro s ⟨mem, rfl⟩ r hr
    cases hr
  · intro s s' hlive hlog hs
    exact hlog.step lawful hlive hs

/-- In a fair run a call that has taken its place gets the lock. -/
theorem entered_run (ρ : qspinlock.Fair (ι := ι) (A := A)) (hr : ∀ n, Reached (ρ.state n))
    {n : Nat} {r : Ref ι A} (h : r ∈ (ρ.state n).exchanged) :
    ∃ m, n ≤ m ∧ r ∈ (ρ.state m).entered := by
  apply Face.served ρ ?_ ?_ h
  · intro n
    obtain ⟨q, w, hi⟩ := (hr n).inv
    exact hi.entered_prefix
  · intro n hn
    refine Program.advances ρ (D := Due) (fun _ _ _ hd => hd.not_out) ?_ ?_ ?_ hn
    · intro n hlt
      obtain ⟨q, w, hi⟩ := (hr n).inv
      exact hi.exists_due (hr n).going hlt
    · intro n k t hlt hd hm
      obtain ⟨q, w, hi⟩ := (hr n).inv
      obtain ⟨q', w', hi'⟩ := (hr (n + 1)).inv
      exact hi.due_self hi' (hr (n + 1)).going hm hlt hd
    · intro n k t hd ho
      obtain ⟨q, w, hi⟩ := (hr n).inv
      exact hd.other hi (ρ.step n) ho

/-- In a fair run a call that has the lock leaves the queue. -/
theorem held_run (ρ : qspinlock.Fair (ι := ι) (A := A)) (hr : ∀ n, Reached (ρ.state n)) {n : Nat}
    (h : ((ρ.state n).pc t).Holds) : ∃ m, n ≤ m ∧ (ρ.state m).pc t = .held := by
  obtain ⟨q, w, hi⟩ := (hr n).inv
  rcases hi.exists_leaves (hr n).going h with hheld | ⟨k, u, hu⟩
  · exact ⟨n, Nat.le_refl n, hheld⟩
  suffices hrun : ∃ m, n < m ∧ (ρ.state m).pc t = .held by
    obtain ⟨m, hm, hheld⟩ := hrun
    exact ⟨m, Nat.le_of_lt hm, hheld⟩
  refine ρ.eventually (D := Leaves t) ?_ hu
  intro n k u hu
  obtain ⟨q, w, hi⟩ := (hr n).inv
  obtain ⟨q', w', hi'⟩ := (hr (n + 1)).inv
  by_cases hut : u = t
  · subst hut
    refine ⟨fun he => by unfold Leaves at hu; rw [he] at hu; exact hu, ?_⟩
    by_cases ho : ρ.mover n = some u
    · have hs := ρ.step n
      rw [ho] at hs
      cases hs with
      | access hm =>
        rcases hi'.leaves_self (hr (n + 1)).going hm hu with hheld | ⟨k', u', hu', hk⟩
        · exact .inl hheld
        · exact .inr ⟨k', u', hu', .inl hk⟩
    · exact .inr ⟨k, u, hi.leaves_other (ρ.step n) ho hu, .inr ⟨rfl, rfl, ho⟩⟩
  · -- `t` waits for the link
    obtain ⟨mm, z, hp, rfl, hz⟩ : ∃ mm z, (ρ.state n).pc t = .awaitNext mm ∧ k = 2 ∧
        (ρ.state n).pc u = .link z (.node mm) := by
      unfold Leaves at hu
      cases hp : (ρ.state n).pc t with
      | awaitNext mm =>
        rw [hp] at hu
        rcases hu with ⟨hk, -, z, hz⟩ | ⟨-, -, he⟩
        · exact ⟨mm, z, rfl, hk, hz⟩
        · exact absurd he hut
      | loadNext mm | compareExchange mm | pass mm next =>
        rw [hp] at hu
        exact absurd hu.2 hut
      | _ =>
        rw [hp] at hu
        exact hu.elim
    refine ⟨busy_of_node lawful (congrArg Pc.node hz), .inr ?_⟩
    rcases hi.leaves_wait (ρ.step n) hp hz with ht | ⟨hu', ho⟩
    · exact ⟨1, t, ht, .inl (by omega)⟩
    · exact ⟨2, u, hu', .inr ⟨rfl, rfl, ho⟩⟩

/-- The accesses left before a call takes its place, less one. -/
def Pc.arrives : Pc ι A → Option Nat
  | initNext _ => some 2
  | initLocked _ => some 1
  | exchange _ => some 0
  | _ => none

omit [DecidableEq ι] [DecidableEq A] in
/-- A call takes its place, is in the queue or has the lock. -/
theorem cases_of_node {p : Pc ι A} (hp : p.node = some mm) :
    (∃ k, p.arrives = some k) ∨ p.queued = some mm ∨ p.Holds := by
  cases p with
  | out | held => cases hp
  | initNext r | initLocked r | exchange r => exact .inl ⟨_, rfl⟩
  | pass r next => exact .inr (.inr trivial)
  | _ => exact .inr (.inl hp)

theorem Inv.exchanged_of_queued (h : Inv s q w) (hp : (s.pc t).queued = some mm) :
    mm ∈ s.exchanged := by
  obtain ⟨e, -, hx⟩ := h.fifo
  have hq : mm ∈ q := (h.queue.mem mm).2 (by rw [h.queue.thread_eq hp]; exact hp)
  simp [hx, hq]

/-- **Every call returns.** In a fair run from a state reached from `FJX_QSPINLOCK_INIT`, in which
the threads go on that are in a call or have the lock, a thread that is in `fjx_qspinlock_lock` has
returned with the lock at some later point, and one that has returned has released it, whatever
calls other threads make. -/
theorem qspinlock_served (ρ : qspinlock.Fair (ι := ι) (A := A)) (h0 : Reached (ρ.state 0)) (n : Nat)
    (t : ι) :
    (∀ mm, ((ρ.state n).pc t).node = some mm → ∃ m, n < m ∧ (ρ.state m).pc t = .held) ∧
    ((ρ.state n).pc t = .held → ∃ m, n < m ∧ (ρ.state m).pc t = .out) := by
  have hr : ∀ n, Reached (ρ.state n) := fun n =>
    ρ.always (fun _ _ _ hs hst => hs.next hst.step) (Nat.zero_le n) h0
  constructor
  · intro mm hmm
    have hlive : ∀ n, Live qspinlock (ρ.state n) := by
      intro n
      obtain ⟨q, w, hi⟩ := (hr n).inv
      exact hi.queue.live
    by_cases hold : ((ρ.state n).pc t).Holds
    · obtain ⟨m, hm, hheld⟩ := held_run ρ hr hold
      refine ⟨m, Nat.lt_of_le_of_ne hm ?_, hheld⟩
      rintro rfl
      rw [hheld] at hmm
      cases hmm
    have hserved : ∀ m, n ≤ m → ((ρ.state m).pc t).queued = some mm →
        ∃ m, n ≤ m ∧ mm ∈ (ρ.state m).entered := by
      intro m hm hp
      obtain ⟨q, w, hi⟩ := (hr m).inv
      obtain ⟨m', hm', he⟩ := entered_run ρ hr (hi.exchanged_of_queued hp)
      exact ⟨m', Nat.le_trans hm hm', he⟩
    have hentered : ∃ m, n ≤ m ∧ mm ∈ (ρ.state m).entered := by
      rcases cases_of_node hmm with ⟨k, hk⟩ | hp | hp
      · obtain ⟨m, hm, hp⟩ := Program.goes ρ
          (R := fun p k => p.arrives = some k ∧ p.node = some mm) (G := fun p => p.queued = some mm)
          (fun k hk => by cases hk.1) (fun p k x hR hx c => by
            obtain ⟨hk, hmm⟩ := hR
            cases p <;> simp only [Pc.arrives, reduceCtorEq, Option.some.injEq] at hk <;>
              obtain rfl := Option.some.inj hx <;> obtain rfl := Option.some.inj hmm
            · exact .inr ⟨1, by omega, rfl, rfl⟩
            · exact .inr ⟨0, by omega, rfl, rfl⟩
            · left
              dsimp only
              split <;> rfl) ⟨hk, hmm⟩
        exact hserved m (Nat.le_of_lt hm) hp
      · exact hserved n (Nat.le_refl n) hp
      · exact absurd hp hold
    obtain ⟨m, hm, hgot⟩ := Face.gets ρ hlive (fun n => (hr n).logged) hmm hold hentered
    obtain ⟨m', hm', hheld⟩ := held_run ρ hr hgot
    exact ⟨m', Nat.lt_of_lt_of_le hm hm', hheld⟩
  · intro hheld
    refine Program.goes ρ (R := fun p k => p = .held ∧ k = 0) (G := fun p => p = .out)
      (fun k hk => by cases hk.1) (fun p k x hk hx c => ?_) ⟨hheld, rfl⟩
    obtain ⟨rfl, rfl⟩ := hk
    obtain rfl := Option.some.inj hx
    exact .inl rfl

/-- Of two callers the second one, which has just called, gets the lock. -/
theorem qspinlock_served_run : ∃ ρ : qspinlock.Fair (ι := Bool) (A := Nat),
    (ρ.state 0).pc true = .initNext ⟨true, 1, 20⟩ ∧ ∃ m, 0 < m ∧ (ρ.state m).pc true = .held := by
  have h₀ : Reached (qspinlock.start init fun _ => init : State Bool Nat) := .start ⟨_, rfl⟩
  have h₁ := h₀.next (.call 10 (t := false) rfl (by intro u r hr; cases hr))
  have h₂ := h₁.next (.call 20 (t := true) rfl (by
    intro u r hr
    cases u with
    | false =>
      obtain rfl : _ = r := Option.some.inj hr
      decide
    | true => cases hr))
  obtain ⟨ρ, hρ, hr⟩ := Program.fair_moves h₂ (rfl : qspinlock.moves _
    [false, false, false, false, false, true, true, true, true, false, false, true, false, true,
      true, true, true, true] = some _) 0
    (by intro u r hr; cases u <;> cases hr) (by intro u; cases u <;> rfl)
  have hpc : (ρ.state 0).pc true = .initNext ⟨true, 1, 20⟩ := by
    rw [hρ]
    rfl
  refine ⟨ρ, hpc, (qspinlock_served ρ hr 0 true).1 ⟨true, 1, 20⟩ ?_⟩
  rw [hpc]
  rfl

end Spin.Qspinlock
