import FjxFiber.Lib.QueueLock
import FjxFiber.Spin.McshlockSteps

/-!
# Nobody is forgotten by `fjx_mcshlock`

That only one thread has the lock does not say that it ever goes on to the next one. What is missing
is `Going`: a call that waits in its node has been let go on, or somebody knows it (`Told`); who
could not close the queue has a successor; and while `lock->msg` is set some thread is past its
wait. Every step keeps this (`Going.step`).
-/

set_option autoImplicit false

namespace Spin.Mcshlock

open Lib Lib.StackNodes

variable {ι A : Type*} [DecidableEq ι] [DecidableEq A] {s s' : State ι A} {q : List (Ref ι A)}
  {w : Option (Ref ι A)} {t : ι} {mm : Ref ι A}

/-! ## What an access does to the others -/

/-- The node of another call is written only to link a call behind it, or to let it go on. -/
theorem Inv.mem_move (h : Inv s q w) (hm : mcshlock.move s t = some s') {r : Ref ι A}
    (hr : mcshlock.Running s r) (hrt : r.thread ≠ t) :
    s'.mem r.addr = s.mem r.addr ∨
    (∃ mm, s.pc t = .link mm (.node r) ∧
      s'.mem r.addr = { s.mem r.addr with tail := .node mm }) ∨
    s.pc t = .clearMsg (.node r) ∧ s'.mem r.addr = { s.mem r.addr with msg := .null } := by
  have hown : ∀ mm, (s.pc t).node = some mm → mm ≠ r := by
    intro mm hmm he
    rw [← he] at hrt
    exact hrt (h.queue.live.own t mm hmm).1
  have hrun : ∀ x r, mcshlock.code (s.pc t) = some x → x.target = .node r → mcshlock.Running s r :=
    fun x r hx hr => (h.access hx).2 r hr
  obtain hsame | ⟨x, hx, htarget, hmem⟩ := StackNodes.mem_move hm h.queue.live hrun hr
  · exact .inl hsame
  refine .inr ?_
  cases hp : s.pc t with
  | out =>
    rw [hp] at hx
    cases hx
  | initTail mm | initMsg mm | awaitMsg mm | loadTail mm | awaitTail mm =>
    rw [hp] at hx
    obtain rfl := Option.some.inj hx
    exact absurd (Ptr.node.inj htarget) (hown mm (congrArg Pc.node hp))
  | exchange mm | awaitLock mm | setMsg mm | compareExchange mm | storeMsg mm succ | held =>
    rw [hp] at hx
    obtain rfl := Option.some.inj hx
    cases htarget
  | link mm prev =>
    rw [hp] at hx
    obtain rfl := Option.some.inj hx
    obtain rfl : prev = .node r := htarget
    exact .inl ⟨mm, rfl, hmem⟩
  | clearMsg succ =>
    rw [hp] at hx
    obtain rfl := Option.some.inj hx
    obtain rfl : succ = .node r := htarget
    exact .inr ⟨rfl, hmem⟩

/-- Who writes to `lock->msg`, and how. -/
theorem msg_move (hm : mcshlock.move s t = some s') :
    s'.lock.msg = s.lock.msg ∨ (∃ mm, s.pc t = .setMsg mm ∧ s'.lock.msg = .lock) ∨
    (∃ mm succ, s.pc t = .storeMsg mm succ ∧ s'.lock.msg = succ) ∨
    s.pc t = .clearMsg .lock ∧ s'.lock.msg = .null := by
  obtain hsame | ⟨x, hx, htarget, hlock⟩ := lock_move hm
  · exact .inl (by rw [hsame])
  cases hp : s.pc t with
  | out =>
    rw [hp] at hx
    cases hx
  | initTail mm | initMsg mm | awaitMsg mm | loadTail mm | awaitTail mm =>
    rw [hp] at hx
    obtain rfl := Option.some.inj hx
    cases htarget
  | exchange mm | awaitLock mm | held =>
    rw [hp] at hx
    obtain rfl := Option.some.inj hx
    exact .inl (by rw [hlock])
  | compareExchange mm =>
    rw [hp] at hx
    obtain rfl := Option.some.inj hx
    dsimp only at hlock
    refine .inl ?_
    split at hlock <;> rw [hlock]
  | link mm prev =>
    rw [hp] at hx
    obtain rfl := Option.some.inj hx
    obtain rfl : prev = .lock := htarget
    exact .inl (by rw [hlock])
  | setMsg mm =>
    rw [hp] at hx
    obtain rfl := Option.some.inj hx
    exact .inr (.inl ⟨mm, rfl, by rw [hlock]⟩)
  | storeMsg mm succ =>
    rw [hp] at hx
    obtain rfl := Option.some.inj hx
    exact .inr (.inr (.inl ⟨mm, succ, rfl, by rw [hlock]⟩))
  | clearMsg succ =>
    rw [hp] at hx
    obtain rfl := Option.some.inj hx
    obtain rfl : succ = .lock := htarget
    exact .inr (.inr (.inr ⟨rfl, by rw [hlock]⟩))

/-- Who writes to `lock->tail`, and how. -/
theorem Inv.tail_move (h : Inv s q w) (hm : mcshlock.move s t = some s') :
    s'.lock.tail = s.lock.tail ∨ (∃ mm, s.pc t = .exchange mm ∧ s'.lock.tail = .node mm) ∨
    s'.lock.tail = .null := by
  obtain hsame | ⟨x, hx, htarget, hlock⟩ := lock_move hm
  · exact .inl (by rw [hsame])
  cases hp : s.pc t with
  | out =>
    rw [hp] at hx
    cases hx
  | initTail mm | initMsg mm | awaitMsg mm | loadTail mm | awaitTail mm =>
    rw [hp] at hx
    obtain rfl := Option.some.inj hx
    cases htarget
  | awaitLock mm | held | setMsg mm | storeMsg mm succ | clearMsg succ =>
    rw [hp] at hx
    obtain rfl := Option.some.inj hx
    exact .inl (by rw [hlock])
  | exchange mm =>
    rw [hp] at hx
    obtain rfl := Option.some.inj hx
    exact .inr (.inl ⟨mm, rfl, by rw [hlock]⟩)
  | link mm prev =>
    have hk := h.known t
    rw [hp] at hx hk
    obtain rfl := Option.some.inj hx
    obtain ⟨-, y, rfl⟩ := hk
    cases htarget
  | compareExchange mm =>
    rw [hp] at hx
    obtain rfl := Option.some.inj hx
    dsimp only at hlock
    split at hlock
    · exact .inr (.inr (by rw [hlock]))
    · exact .inl (by rw [hlock])

/-! ## The lock goes on -/

/-- The thread is going to let the call `y` go on. -/
def Passes (s : State ι A) (y : Ref ι A) : Pc ι A → Prop
  | .storeMsg _ succ | .clearMsg succ => succ = .node y
  | .held => s.lock.msg = .node y
  | _ => False

/-- The call `y`, which waits in its node, is not forgotten: it has been let go on, somebody is
going to do so, or its predecessor knows it. -/
def Told (s : State ι A) (y : Ref ι A) : Prop :=
  (s.mem y.addr).msg = .null ∨ (∃ u, Passes s y (s.pc u)) ∨ layout.Known s y

/-- Somebody always brings the lock forward. -/
structure Going (s : State ι A) : Prop where
  told : ∀ y, s.pc y.thread = .awaitMsg y → Told s y
  /-- Who could not close the queue has a successor. -/
  more : ∀ t mm, s.pc t = .awaitTail mm → s.lock.tail ≠ .node mm
  taken : s.lock.msg ≠ .null → ∃ t, Active s (s.pc t)

omit [DecidableEq ι] [DecidableEq A] in
theorem active_of_passes {y : Ref ι A} {p : Pc ι A} (hp : Passes s y p) : Active s p := by
  cases p <;> first | exact trivial | exact hp.elim

theorem Going.start (mem : A → Mcshlock ι A) : Going (mcshlock.start init mem) where
  told y hy := by cases hy
  more t mm ht := by cases ht
  taken h := absurd rfl h

/-- An access of the predecessor: it passes on what it knows when it leaves the queue. -/
theorem Inv.told_pred (h : Inv s q w) (hm : mcshlock.move s t = some s') {x y : Ref ι A}
    (hx : (s.pc t).queued = some x) (hxy : (s.mem x.addr).tail = .node y) : Told s' y := by
  have hthread := h.queue.thread_eq hx
  have hne : (s.mem x.addr).tail ≠ .lock := by simp [hxy]
  -- it is where it was in the queue, and its node is as it was
  have hstay : ∀ p, s'.pc = Function.update s.pc t p → p.queued = some x →
      (s'.mem x.addr).tail = (s.mem x.addr).tail → Told s' y := by
    intro p hpc hp hmem
    refine .inr (.inr ⟨x, ?_, hmem.trans hxy⟩)
    rw [hpc, hthread, Function.update_self]
    exact hp
  cases hp : s.pc t with
  | out | initTail mm | initMsg mm | exchange mm | storeMsg mm succ | held | clearMsg succ =>
    rw [hp] at hx
    cases hx
  | awaitLock mm | setMsg mm | awaitMsg mm =>
    rw [hp] at hx
    obtain rfl : mm = x := Option.some.inj hx
    have hv := mcshlock.moved rfl hp rfl hm
    refine hstay _ hv.pc ?_ (by rw [hv.mem]; simp [State.store])
    dsimp only
    first
    | rfl
    | split <;> rfl
  | link mm prev =>
    rw [hp] at hx
    obtain rfl : mm = x := Option.some.inj hx
    have hk := h.known t
    rw [hp] at hk
    obtain ⟨-, z, rfl⟩ := hk
    have hv := mcshlock.moved rfl hp rfl hm
    refine hstay _ hv.pc rfl ?_
    rw [hv.mem]
    dsimp only [State.store]
    rw [Function.update_of_ne]
    intro ha
    have hz := h.queue.mem_of_links (congrArg Pc.queued hp) (congrArg Pc.links hp)
    have hmm : mcshlock.Running s mm := h.queue.live.running (congrArg Pc.node hp)
    obtain rfl := h.queue.live.eq_of_addr hmm (h.queue.running hz) ha
    exact hne (h.queue.unset_of_links (congrArg Pc.queued hp) (congrArg Pc.links hp))
  | loadTail mm | awaitTail mm =>
    rw [hp] at hx
    obtain rfl : mm = x := Option.some.inj hx
    have hv := mcshlock.moved rfl hp rfl hm
    refine .inr (.inl ⟨t, ?_⟩)
    rw [hv.pc, Function.update_self]
    dsimp only
    rw [if_neg hne]
    exact hxy
  | compareExchange mm =>
    rw [hp] at hx
    obtain rfl : mm = x := Option.some.inj hx
    have hv := mcshlock.moved rfl hp rfl hm
    have hpc := hv.pc
    dsimp only at hpc
    split at hpc
    case isTrue hsame =>
      have hin : mm ∈ q := (h.queue.mem mm).2 (by rw [hthread, hp]; rfl)
      exact absurd (h.queue.unset_of_tail (h.queue.tail_eq hin hsame)) hne
    case isFalse => exact hstay _ hpc rfl (by rw [hv.mem]; rfl)

/-- A step of another thread. -/
theorem Inv.told_other (h : Inv s q w) (hm : mcshlock.move s t = some s') {y : Ref ι A}
    (hy : s.pc y.thread = .awaitMsg y) (hyt : y.thread ≠ t) (htold : Told s y) : Told s' y := by
  have hrun : mcshlock.Running s y := congrArg Pc.node hy
  rcases htold with hnull | ⟨u, hu⟩ | ⟨x, hx, hxy⟩
  · -- nobody takes that back
    refine .inl ?_
    rcases h.mem_move hm hrun hyt with hmem | ⟨_, -, hmem⟩ | ⟨-, hmem⟩ <;> rw [hmem]
    · exact hnull
    · exact hnull
  · by_cases hut : u = t
    · subst hut
      cases hp : s.pc u with
      | storeMsg mm succ =>
        rw [hp] at hu
        have hv := mcshlock.moved rfl hp rfl hm
        refine .inr (.inl ⟨u, ?_⟩)
        rw [hv.pc, Function.update_self]
        show s'.lock.msg = .node y
        rw [hv.lock]
        exact hu
      | held =>
        rw [hp] at hu
        have hv := mcshlock.moved rfl hp rfl hm
        refine .inr (.inl ⟨u, ?_⟩)
        rw [hv.pc, Function.update_self]
        exact hu
      | clearMsg succ =>
        rw [hp] at hu
        obtain rfl : succ = .node y := hu
        have hv := mcshlock.moved rfl hp rfl hm
        refine .inl ?_
        rw [hv.mem]
        simp [State.store]
      | _ =>
        rw [hp] at hu
        exact hu.elim
    · -- only one thread has the lock
      have hactive : ∀ {p}, s.pc t = p → ¬ Active s p := by
        intro p hp ha
        exact hut (h.one u t (active_of_passes hu) (by rw [hp]; exact ha))
      have hmsg : s'.lock.msg = s.lock.msg := by
        rcases msg_move hm with hmsg | ⟨_, hp, -⟩ | ⟨_, _, hp, -⟩ | ⟨hp, -⟩
        · exact hmsg
        · exact absurd trivial (hactive hp)
        · exact absurd trivial (hactive hp)
        · exact absurd trivial (hactive hp)
      refine .inr (.inl ⟨u, ?_⟩)
      rw [pc_move hm hut]
      cases hp : s.pc u with
      | held =>
        rw [hp] at hu
        exact hmsg.trans hu
      | _ =>
        rw [hp] at hu
        exact hu
  · have hrunx : mcshlock.Running s x := node_of_queued hx
    by_cases hxt : x.thread = t
    · rw [hxt] at hx
      exact h.told_pred hm hx hxy
    · refine .inr (.inr ⟨x, by rw [pc_move hm hxt]; exact hx, ?_⟩)
      show (s'.mem x.addr).tail = .node y
      rcases h.mem_move hm hrunx hxt with hmem | ⟨mm, hp, -⟩ | ⟨-, hmem⟩
      · rw [hmem]
        exact hxy
      · -- nobody is about to link to `x`
        have hun := h.queue.unset_of_links (congrArg Pc.queued hp) (congrArg Pc.links hp)
        rw [hxy] at hun
        cases hun
      · rw [hmem]
        exact hxy

/-- A call comes to wait in its node by linking itself, and stays until it is let go on. -/
theorem awaitMsg_move (hm : mcshlock.move s t = some s') {y : Ref ι A}
    (hy : s'.pc t = .awaitMsg y) :
    (∃ prev, s.pc t = .link y prev) ∨ s.pc t = .awaitMsg y ∧ s'.pc = s.pc ∧ s'.mem = s.mem ∧
      s'.lock = s.lock := by
  cases hp : s.pc t with
  | out =>
    obtain ⟨x, n, hx, -⟩ := (Program.move_eq_some _).1 hm
    rw [hp] at hx
    cases hx
  | link mm prev =>
    obtain ⟨x, n, hx, hn, rfl⟩ := (Program.move_eq_some _).1 hm
    rw [hp] at hx
    obtain rfl := Option.some.inj hx
    simp only [Program.perform, Function.update_self, Pc.awaitMsg.injEq] at hy
    exact .inl ⟨prev, by rw [hy]⟩
  | awaitMsg mm =>
    have hv := mcshlock.moved rfl hp rfl hm
    have hpc := hv.pc
    dsimp only at hpc
    rw [hpc, Function.update_self] at hy
    split at hy
    case isTrue => cases hy
    case isFalse hne =>
      rw [if_neg hne, ← hp, Function.update_eq_self] at hpc
      refine .inr ⟨hy, hpc, ?_, hv.lock⟩
      rw [hv.mem]
      simp [State.store]
  | clearMsg succ =>
    obtain ⟨x, n, hx, hn, rfl⟩ := (Program.move_eq_some _).1 hm
    rw [hp] at hx
    obtain rfl := Option.some.inj hx
    simp [Program.perform] at hy
  | _ =>
    have hv := mcshlock.moved rfl hp rfl hm
    rw [hv.pc, Function.update_self] at hy
    dsimp only at hy
    try split at hy
    all_goals cases hy

theorem Going.told_move (h : Inv s q w) (hg : Going s) (hm : mcshlock.move s t = some s')
    {y : Ref ι A} (hy : s'.pc y.thread = .awaitMsg y) : Told s' y := by
  by_cases hyt : y.thread = t
  case neg =>
    rw [pc_move hm hyt] at hy
    exact h.told_other hm hy hyt (hg.told y hy)
  rw [hyt] at hy
  rcases awaitMsg_move hm hy with ⟨prev, hp⟩ | ⟨hp, hpc, hmem, hlock⟩
  · -- it has just linked itself
    have hk := h.known t
    rw [hp] at hk
    obtain ⟨-, x, rfl⟩ := hk
    have hv := mcshlock.moved rfl hp rfl hm
    have hx := h.queue.mem_of_links (congrArg Pc.queued hp) (congrArg Pc.links hp)
    refine .inr (.inr ⟨x, ?_, ?_⟩)
    · rw [same_goto (f := layout.queued) hv.pc (by rw [hp]; rfl)]
      exact (h.queue.mem x).1 hx
    · show (s'.mem x.addr).tail = .node y
      rw [hv.mem]
      simp [State.store]
  · have hold := hg.told y (by rw [hyt]; exact hp)
    unfold Told Layout.Known Layout.next at hold ⊢
    rw [hpc, hmem]
    rcases hold with hnull | ⟨u, hu⟩ | hx
    · exact .inl hnull
    · refine .inr (.inl ⟨u, ?_⟩)
      unfold Passes at hu ⊢
      rw [hlock]
      exact hu
    · exact .inr (.inr hx)

theorem Going.more_move (h : Inv s q w) (hg : Going s) (hm : mcshlock.move s t = some s') {u : ι}
    (hu : s'.pc u = .awaitTail mm) : s'.lock.tail ≠ .node mm := by
  by_cases hut : u = t
  case neg =>
    rw [pc_move hm hut] at hu
    have hmm := (h.queue.live.own u mm (congrArg Pc.node hu)).1
    rcases h.tail_move hm with htail | ⟨mm', hp, htail⟩ | htail <;> rw [htail]
    · exact hg.more u mm hu
    · have hmm' := (h.queue.live.own t mm' (congrArg Pc.node hp)).1
      intro he
      rw [Ptr.node.inj he, hmm] at hmm'
      exact hut hmm'
    · simp
  rw [hut] at hu
  cases hp : s.pc t with
  | out =>
    obtain ⟨x, n, hx, -⟩ := (Program.move_eq_some _).1 hm
    rw [hp] at hx
    cases hx
  | compareExchange mm' =>
    have hv := mcshlock.moved rfl hp rfl hm
    have hlock := hv.lock
    rw [hv.pc, Function.update_self] at hu
    dsimp only at hu hlock
    split at hu
    case isTrue => cases hu
    case isFalse hdiff =>
      rw [if_neg hdiff] at hlock
      obtain rfl := Pc.awaitTail.inj hu
      rw [hlock]
      intro he
      dsimp only [State.store] at he
      rw [he] at hdiff
      simp [Ptr.same] at hdiff
  | awaitTail mm' =>
    have hv := mcshlock.moved rfl hp rfl hm
    have hlock : s'.lock = s.lock := hv.lock
    rw [hv.pc, Function.update_self] at hu
    dsimp only at hu
    split at hu
    case isFalse => cases hu
    case isTrue =>
      rw [hlock]
      exact hg.more t mm (by rw [hp]; exact hu)
  | link mm' prev | clearMsg prev =>
    obtain ⟨x, n, hx, hn, rfl⟩ := (Program.move_eq_some _).1 hm
    rw [hp] at hx
    obtain rfl := Option.some.inj hx
    simp [Program.perform] at hu
  | _ =>
    have hv := mcshlock.moved rfl hp rfl hm
    rw [hv.pc, Function.update_self] at hu
    dsimp only at hu
    try split at hu
    all_goals cases hu

/-- Another thread's access leaves a thread active that is. -/
theorem Inv.active_other (h : Inv s q w) (hm : mcshlock.move s t = some s') {u : ι} (hut : u ≠ t)
    (hu : Active s (s.pc u)) : Active s' (s'.pc u) := by
  rw [pc_move hm hut]
  cases hp : s.pc u with
  | awaitMsg r =>
    rw [hp] at hu
    have hru := (h.queue.live.own u r (congrArg Pc.node hp)).1
    have hrun : mcshlock.Running s r := h.queue.live.running (congrArg Pc.node hp)
    show (s'.mem r.addr).msg = .null
    rcases h.mem_move hm hrun (by rw [hru]; exact hut) with hmem | ⟨_, -, hmem⟩ | ⟨-, hmem⟩ <;>
      rw [hmem]
    · exact hu
    · exact hu
  | _ =>
    rw [hp] at hu
    exact hu

/-- An active thread stays so until it releases the lock. -/
theorem active_self (hm : mcshlock.move s t = some s')
    (ht : Active s (s.pc t)) : (∃ succ, s.pc t = .clearMsg succ) ∨ Active s' (s'.pc t) := by
  cases hp : s.pc t with
  | out | initTail mm | initMsg mm | exchange mm | awaitLock mm | link mm prev =>
    rw [hp] at ht
    exact ht.elim
  | clearMsg succ => exact .inl ⟨succ, rfl⟩
  | awaitMsg mm =>
    rw [hp] at ht
    have hnull : (s.mem mm.addr).msg = .null := ht
    have hv := mcshlock.moved rfl hp rfl hm
    refine .inr ?_
    rw [hv.pc, Function.update_self]
    dsimp only
    rw [if_pos hnull]
    trivial
  | _ =>
    have hv := mcshlock.moved rfl hp rfl hm
    refine .inr ?_
    rw [hv.pc, Function.update_self]
    dsimp only
    try split
    all_goals trivial

theorem Going.taken_move (h : Inv s q w) (hg : Going s) (hm : mcshlock.move s t = some s')
    (hne : s'.lock.msg ≠ .null) : ∃ u, Active s' (s'.pc u) := by
  by_cases ht : Active s (s.pc t)
  · rcases active_self hm ht with ⟨succ, hp⟩ | ha
    case inr => exact ⟨t, ha⟩
    have hk := h.known t
    rw [hp] at hk
    rcases hk.1 with rfl | ⟨y, rfl, -, hyp, -⟩
    · have hv := mcshlock.moved rfl hp rfl hm
      rw [hv.lock] at hne
      exact absurd rfl hne
    · have hv := mcshlock.moved rfl hp rfl hm
      have hyt : y.thread ≠ t := by
        intro he
        rw [he, hp] at hyp
        cases hyp
      refine ⟨y.thread, ?_⟩
      rw [pc_move hm hyt, hyp]
      show (s'.mem y.addr).msg = .null
      rw [hv.mem]
      simp [State.store]
  · have hmsg : s'.lock.msg = s.lock.msg := by
      rcases msg_move hm with hmsg | ⟨_, hp, -⟩ | ⟨_, _, hp, -⟩ | ⟨hp, -⟩
      · exact hmsg
      all_goals
        rw [hp] at ht
        exact absurd trivial ht
    rw [hmsg] at hne
    obtain ⟨u, hu⟩ := hg.taken hne
    have hut : u ≠ t := by
      intro he
      rw [he] at hu
      exact ht hu
    exact ⟨u, h.active_other hm hut hu⟩

theorem Active.around (hs : mcshlock.Turn s none s') (ht : Active s (s.pc t)) :
    Active s' (s'.pc t) := by
  have hbusy : mcshlock.Busy s t := by
    intro he
    rw [he] at ht
    exact ht
  obtain ⟨hpc, -, hmem⟩ := hs.around hbusy
  rw [hpc]
  cases hp : s.pc t with
  | awaitMsg r =>
    rw [hp] at ht
    show (s'.mem r.addr).msg = .null
    rw [hmem r (congrArg Pc.node hp)]
    exact ht
  | _ =>
    rw [hp] at ht
    exact ht

theorem Going.around (h : Inv s q w) (hg : Going s) (hs : mcshlock.Turn s none s')
    (hlock : s'.lock = s.lock) (hpc : ∀ u, s'.pc u = s.pc u ∨ ∃ r, s'.pc u = .initTail r) :
    Going s' := by
  have hback : ∀ {u p}, s'.pc u = p → (∀ r, p ≠ .initTail r) → s.pc u = p := by
    intro u p hu hp
    rcases hpc u with he | ⟨r, he⟩
    · rw [← he, hu]
    · exact absurd (hu.symm.trans he) (hp r)
  refine ⟨?_, ?_, ?_⟩
  · intro y hy
    have hy := hback hy (by simp)
    rcases hg.told y hy with hnull | ⟨u, hu⟩ | hknown
    · have ha : Active s (s.pc y.thread) := by
        rw [hy]
        exact hnull
      have ha := ha.around hs
      rw [(hs.around (by rw [Program.Busy, hy]; simp [mcshlock])).1, hy] at ha
      exact .inl ha
    · refine .inr (.inl ⟨u, ?_⟩)
      have hbusy : mcshlock.Busy s u := by
        intro he
        rw [he] at hu
        exact hu
      rw [(hs.around hbusy).1]
      unfold Passes at hu ⊢
      rw [hlock]
      exact hu
    · exact .inr (.inr (h.queue.known_around lawful hs hknown))
  · intro u mm hu
    rw [hlock]
    exact hg.more u mm (hback hu (by simp))
  · intro hne
    rw [hlock] at hne
    obtain ⟨u, hu⟩ := hg.taken hne
    exact ⟨u, hu.around hs⟩

theorem Going.step (h : Inv s q w) (hg : Going s) (hs : mcshlock.Step s s') : Going s' := by
  cases hs with
  | @access _ t hm =>
    exact ⟨fun y hy => hg.told_move h hm hy, fun u mm hu => hg.more_move h hm hu,
      fun hne => hg.taken_move h hm hne⟩
  | @call t a ht ha =>
    refine hg.around h (.call a ht ha) rfl fun u => ?_
    by_cases hut : u = t
    · exact .inr ⟨_, by rw [hut]; exact Function.update_self _ _ _⟩
    · exact .inl (Function.update_of_ne hut _ _)
  | other a n ha => exact hg.around h (.other a n ha) rfl fun _ => .inl rfl

theorem Reached.going (h : Reached s) : Going s := by
  apply Reachable.invariant_from (I := fun s => ∃ q w, Inv s q w) ?_ ?_ ?_ h
  · exact fun _ hs => Reached.inv hs
  · rintro s ⟨mem, rfl⟩
    exact .start mem
  · rintro s s' ⟨q, w, hi⟩ hg hs
    exact hg.step hi hs

end Spin.Mcshlock
