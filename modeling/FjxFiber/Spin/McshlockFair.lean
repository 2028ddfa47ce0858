import FjxFiber.Spin.McshlockGoing

/-!
# `fjx_mcshlock` serves every caller

As a lock `fjx_mcshlock` is first come, first served (`mcshlock_refines`). In a fair run, moreover,
every call of `fjx_mcshlock_lock` returns with the lock, however many calls others make meanwhile
(`mcshlock_served`): it is always the turn of some thread (`Due`), and its access brings the lock
forward (`Inv.due_self`).
-/

set_option autoImplicit false

namespace Spin.Mcshlock

open Lib Lib.StackNodes

variable {ι A : Type*} [DecidableEq ι] [DecidableEq A] {s s' : State ι A} {q : List (Ref ι A)}
  {w : Option (Ref ι A)} {t : ι} {mm : Ref ι A}

/-! ## The lock from outside -/

/-- The lock is released by the last access of `fjx_mcshlock_unlock`. -/
def face : Face (mcshlock : Program ι A (Mcshlock ι A) (Pc ι A)) where
  Holds := Pc.Holds
  releases
    | .clearMsg _ => true
    | _ => false
  out h := h
  enter _ h := h
  exchanges p hp := by
    cases p <;> simp_all [mcshlock, Pc.node]
  enters p hp := by
    cases p <;> simp_all [mcshlock, Pc.node]
  enter_holds p x hx hp n := by
    cases p <;> simp [mcshlock] at hp
    obtain rfl := Option.some.inj hx
    trivial
  release_holds p x hx _ hp := by
    cases p <;> simp at hp
    obtain rfl := Option.some.inj hx
    exact ⟨trivial, fun _ => rfl⟩
  stay p x hx he hr n := by
    cases p <;> simp only [mcshlock, code, Option.some.injEq, reduceCtorEq] at hx he hr <;> subst hx
    all_goals
      dsimp only
      try split
      all_goals simp [Pc.Holds]

theorem Inv.grants (h : Inv s q w) : face.Grants s where
  live := h.queue.live
  one t u ht hu := h.one t u (active_of_holds ht) (active_of_holds hu)
  free t u ht hu := by
    cases hp : s.pc t with
    | storeMsg mm succ =>
      have htu := h.one t u (by rw [hp]; trivial) (active_of_holds hu)
      rw [← htu, hp] at hu
      exact hu
    | _ => simp [mcshlock, hp] at ht
  first t mm ht hmm := by
    cases hp : s.pc t with
    | storeMsg mm' succ =>
      rw [hp] at hmm
      obtain rfl : mm' = mm := Option.some.inj hmm
      have hw : w = some mm' := by
        rw [h.leaving, (h.queue.live.own t mm' (by rw [hp]; rfl)).1, hp]
        rfl
      exact ⟨q, by rw [h.fifo, hw]; rfl⟩
    | _ => simp [mcshlock, hp] at ht

/-! ## Whose turn it is -/

/-- The thread brings the lock forward with its next access, and so many have to until a call gets
the lock. -/
def Due (s : State ι A) (k : Nat) (t : ι) : Prop :=
  match s.pc t with
  | .held => k = 9
  | .clearMsg _ => k = 8
  | .awaitLock _ => s.lock.msg = .null ∧ k = 7
  | .awaitMsg mm => (s.mem mm.addr).msg = .null ∧ k = 7
  | .setMsg _ => k = 6
  | .loadTail _ => k = 5
  | .compareExchange _ => k = 4
  | .link _ prev => (∃ x, prev = .node x ∧ s.pc x.thread = .awaitTail x) ∧ k = 3
  | .awaitTail mm => (s.mem mm.addr).tail ≠ .lock ∧ k = 2
  | .storeMsg _ _ => k = 1
  | _ => False

/-- Who waits for a link waits for a thread that is about to set it. -/
theorem Inv.due_awaitTail (h : Inv s q w) (hg : Going s) (ht : s.pc t = .awaitTail mm) :
    ∃ k u, Due s k u ∧ k ≤ 3 := by
  by_cases htail : (s.mem mm.addr).tail = .lock
  case neg => exact ⟨2, t, by unfold Due; rw [ht]; exact ⟨htail, rfl⟩, by omega⟩
  have hk := h.known t
  rw [ht] at hk
  obtain ⟨r, rfl⟩ := List.head?_eq_some_iff.1 hk.1
  have hmore := hg.more t mm ht
  cases r with
  | nil => exact absurd h.queue.queue.tail hmore
  | cons y r =>
    have hhead := h.queue.second_ne
    have hyq := (h.queue.mem y).1 (by simp)
    have hky := h.known y.thread
    cases hp : s.pc y.thread with
    | awaitLock z | setMsg z =>
      rw [hp] at hyq hky
      rw [Option.some.inj hyq] at hky
      exact absurd hky hhead
    | loadTail z | compareExchange z | awaitTail z =>
      rw [hp] at hyq hky
      rw [Option.some.inj hyq] at hky
      exact absurd hky.1 hhead
    | out | initTail z | initMsg z | exchange z | storeMsg z v | held | clearMsg v =>
      rw [hp] at hyq
      cases hyq
    | link z prev =>
      rw [hp] at hky
      obtain ⟨-, x, rfl⟩ := hky
      obtain rfl := h.queue.links_second (z := x) (by rw [hp]; rfl)
      refine ⟨3, y.thread, ?_, by omega⟩
      unfold Due
      rw [hp]
      refine ⟨⟨x, rfl, ?_⟩, rfl⟩
      rw [(h.queue.live.own t x (congrArg Pc.node ht)).1, ht]
    | awaitMsg z =>
      rw [hp] at hyq hky
      obtain rfl : z = y := Option.some.inj hyq
      exfalso
      have hsucc : ∀ v, Succ s (mm :: z :: r) v → v ≠ .node z := by
        rintro v (rfl | ⟨x, rfl, hx, -⟩) he
        · cases he
        · rw [Ptr.node.inj he] at hx
          exact hhead hx
      rcases hg.told z hp with hnull | ⟨u, hu⟩ | hknown
      · exact hhead (hky hnull).1
      · have hku := h.known u
        cases hpu : s.pc u with
        | storeMsg _ v | clearMsg v =>
          rw [hpu] at hu hku
          exact hsucc v hku.1 hu
        | held =>
          rw [hpu] at hu hku
          exact hsucc _ hku hu
        | _ =>
          rw [hpu] at hu
          exact hu
      · have hxz : (s.mem mm.addr).tail = .node z := h.queue.known_second hknown
        rw [htail] at hxz
        cases hxz

/-- As long as a call waits it is somebody's turn. -/
theorem Inv.exists_due (h : Inv s q w) (hg : Going s) (hne : s.entered ≠ s.exchanged) :
    ∃ k t, Due s k t ∧ (k ≤ 7 ∨ (s.pc t).Holds) := by
  by_cases hactive : ∃ t, Active s (s.pc t)
  · obtain ⟨t, ht⟩ := hactive
    cases hp : s.pc t with
    | awaitTail mm =>
      obtain ⟨k, u, hu, hk⟩ := h.due_awaitTail hg hp
      exact ⟨k, u, hu, .inl (by omega)⟩
    | setMsg mm => exact ⟨6, t, by unfold Due; rw [hp], .inl (by omega)⟩
    | loadTail mm => exact ⟨5, t, by unfold Due; rw [hp], .inl (by omega)⟩
    | compareExchange mm => exact ⟨4, t, by unfold Due; rw [hp], .inl (by omega)⟩
    | storeMsg mm succ => exact ⟨1, t, by unfold Due; rw [hp], .inl (by omega)⟩
    | held => exact ⟨9, t, by unfold Due; rw [hp], .inr (by rw [hp]; trivial)⟩
    | clearMsg succ => exact ⟨8, t, by unfold Due; rw [hp], .inr (by rw [hp]; trivial)⟩
    | awaitMsg mm =>
      rw [hp] at ht
      exact ⟨7, t, by unfold Due; rw [hp]; exact ⟨ht, rfl⟩, .inl (by omega)⟩
    | out | initTail mm | initMsg mm | exchange mm | awaitLock mm | link mm prev =>
      rw [hp] at ht
      exact ht.elim
  -- nobody has passed its wait: the first call finds the lock free
  have hno : ∀ t, ¬ Active s (s.pc t) := fun t ht => hactive ⟨t, ht⟩
  have hnull : s.lock.msg = .null := by
    by_contra hmsg
    exact hactive (hg.taken hmsg)
  have hw : w = none := by
    cases hw : w with
    | none => rfl
    | some r => exact absurd (active_of_leaving ((h.leaving r).1 hw)) (hno _)
  cases q with
  | nil =>
    rw [h.fifo, hw] at hne
    simp at hne
  | cons y r =>
    have hhead : (y :: r).head? = some y := rfl
    have hyq := (h.queue.mem y).1 (.head _)
    have hky := h.known y.thread
    cases hp : s.pc y.thread with
    | awaitLock z =>
      exact ⟨7, y.thread, by unfold Due; rw [hp]; exact ⟨hnull, rfl⟩, .inl (by omega)⟩
    | link z prev =>
      rw [hp] at hky
      obtain ⟨-, x, rfl⟩ := hky
      exact absurd (by rw [hp]; rfl) (h.queue.head_not_links (x := x) hhead)
    | awaitMsg z =>
      rw [hp] at hyq
      obtain rfl : z = y := Option.some.inj hyq
      rcases hg.told z hp with hz | ⟨u, hu⟩ | hknown
      · exact absurd (by rw [hp]; exact hz) (hno z.thread)
      · exact absurd (active_of_passes hu) (hno u)
      · exact absurd hknown (h.queue.head_unknown hhead)
    | setMsg z | loadTail z | compareExchange z | awaitTail z =>
      exact absurd (by rw [hp]; trivial) (hno y.thread)
    | out | initTail z | initMsg z | exchange z | storeMsg z v | held | clearMsg v =>
      rw [hp] at hyq
      cases hyq

/-- Another thread's access leaves it the turn of the thread whose turn it is. -/
theorem Inv.due_other (h : Inv s q w) (hm : mcshlock.move s t = some s') {u : ι} {k : Nat}
    (hut : u ≠ t) (hu : Due s k u) : Due s' k u := by
  have hpc := pc_move hm hut
  unfold Due at hu ⊢
  rw [hpc]
  cases hp : s.pc u with
  | awaitLock mm =>
    rw [hp] at hu
    refine ⟨?_, hu.2⟩
    have hku := h.known u
    have hkt := h.known t
    rw [hp] at hku
    rcases msg_move hm with hmsg | ⟨mm', ht, -⟩ | ⟨_, _, ht, -⟩ | ⟨-, hmsg⟩
    · rw [hmsg]
      exact hu.1
    · -- both would be at the head of the queue
      rw [ht] at hkt
      obtain rfl := Option.some.inj (hku.symm.trans hkt)
      exact absurd (h.queue.eq_of_queued (congrArg Pc.queued ht) (congrArg Pc.queued hp)) hut
    · rw [ht] at hkt
      exact absurd hu.1 hkt.2
    · exact hmsg
  | awaitMsg mm =>
    rw [hp] at hu
    have ha : Active s (s.pc u) := by
      rw [hp]
      exact hu.1
    have ha' := h.active_other hm hut ha
    rw [hpc, hp] at ha'
    exact ⟨ha', hu.2⟩
  | link mm prev =>
    rw [hp] at hu
    obtain ⟨⟨x, rfl, hx⟩, hk⟩ := hu
    refine ⟨⟨x, rfl, ?_⟩, hk⟩
    by_cases hxt : x.thread = t
    · -- it still finds no link
      rw [hxt] at hx
      have hv := mcshlock.moved rfl hx rfl hm
      have hun : (s.mem x.addr).tail = .lock :=
        h.queue.unset_of_links (congrArg Pc.queued hp) (congrArg Pc.links hp)
      rw [hxt, hv.pc, Function.update_self]
      dsimp only
      rw [if_pos hun]
    · rw [pc_move hm hxt]
      exact hx
  | awaitTail mm =>
    rw [hp] at hu
    refine ⟨?_, hu.2⟩
    have hmm := (h.queue.live.own u mm (congrArg Pc.node hp)).1
    have hrun : mcshlock.Running s mm := h.queue.live.running (congrArg Pc.node hp)
    rcases h.mem_move hm hrun (by rw [hmm]; exact hut) with hmem | ⟨_, -, hmem⟩ | ⟨-, hmem⟩ <;>
      rw [hmem]
    · exact hu.1
    · simp
    · exact hu.1
  | _ =>
    rw [hp] at hu
    exact hu

/-- **The thread whose turn it is brings the lock forward.** -/
theorem Inv.due_self {q' : List (Ref ι A)} {w' : Option (Ref ι A)} (h : Inv s q w)
    (h' : Inv s' q' w') (hg' : Going s') (hm : mcshlock.move s t = some s') {k : Nat}
    (hne : s.entered ≠ s.exchanged) (ht : Due s k t) :
    s.entered.length < s'.entered.length ∨ ∃ k' t', Due s' k' t' ∧ k' < k := by
  have hgoto : ∀ {j p}, s'.pc = Function.update s.pc t p →
      (s'.pc t = p → Due s' j t) → j < k →
      s.entered.length < s'.entered.length ∨ ∃ k' t', Due s' k' t' ∧ k' < k := by
    intro j p hpc hd hk
    refine .inr ⟨j, t, hd ?_, hk⟩
    rw [hpc, Function.update_self]
  unfold Due at ht
  cases hp : s.pc t with
  | out | initTail mm | initMsg mm | exchange mm =>
    rw [hp] at ht
    exact ht.elim
  | held =>
    rw [hp] at ht
    have hv := mcshlock.moved rfl hp rfl hm
    exact hgoto (j := 8) hv.pc (fun hpc => by unfold Due; rw [hpc]) (by omega)
  | setMsg mm =>
    rw [hp] at ht
    have hv := mcshlock.moved rfl hp rfl hm
    exact hgoto (j := 5) hv.pc (fun hpc => by unfold Due; rw [hpc]) (by omega)
  | awaitLock mm =>
    rw [hp] at ht
    have hv := mcshlock.moved rfl hp rfl hm
    have hpc := hv.pc
    dsimp only at hpc
    rw [if_pos ht.1] at hpc
    exact hgoto (j := 6) hpc (fun hpc => by unfold Due; rw [hpc]) (by omega)
  | awaitMsg mm =>
    rw [hp] at ht
    have hv := mcshlock.moved rfl hp rfl hm
    have hpc := hv.pc
    dsimp only at hpc
    rw [if_pos ht.1] at hpc
    exact hgoto (j := 5) hpc (fun hpc => by unfold Due; rw [hpc]) (by omega)
  | loadTail mm =>
    rw [hp] at ht
    have hv := mcshlock.moved rfl hp rfl hm
    have hpc := hv.pc
    dsimp only at hpc
    split at hpc
    · exact hgoto (j := 4) hpc (fun hpc => by unfold Due; rw [hpc]) (by omega)
    · exact hgoto (j := 1) hpc (fun hpc => by unfold Due; rw [hpc]) (by omega)
  | awaitTail mm =>
    rw [hp] at ht
    have hv := mcshlock.moved rfl hp rfl hm
    have hpc := hv.pc
    dsimp only at hpc
    rw [if_neg ht.1] at hpc
    exact hgoto (j := 1) hpc (fun hpc => by unfold Due; rw [hpc]) (by omega)
  | compareExchange mm =>
    rw [hp] at ht
    have hv := mcshlock.moved rfl hp rfl hm
    have hpc := hv.pc
    dsimp only at hpc
    split at hpc
    · exact hgoto (j := 1) hpc (fun hpc => by unfold Due; rw [hpc]) (by omega)
    · have hpt : s'.pc t = .awaitTail mm := by rw [hpc, Function.update_self]
      obtain ⟨k', u, hu, hk⟩ := h'.due_awaitTail hg' hpt
      exact .inr ⟨k', u, hu, by omega⟩
  | link mm prev =>
    rw [hp] at ht
    obtain ⟨⟨x, rfl, hx⟩, rfl⟩ := ht
    have hv := mcshlock.moved rfl hp rfl hm
    have hxt : x.thread ≠ t := by
      intro he
      rw [he, hp] at hx
      cases hx
    refine .inr ⟨2, x.thread, ?_, by omega⟩
    unfold Due
    rw [pc_move hm hxt, hx]
    refine ⟨?_, rfl⟩
    rw [hv.mem]
    simp [State.store]
  | storeMsg mm succ =>
    have hv := mcshlock.moved rfl hp rfl hm
    have hentered : s'.entered = s.entered ++ [mm] := hv.entered
    refine .inl ?_
    rw [hentered]
    simp
  | clearMsg succ =>
    rw [hp] at ht
    have hlog : s'.exchanged = s.exchanged ∧ s'.entered = s.entered := by
      obtain ⟨x, n, hx, -, rfl⟩ := (Program.move_eq_some _).1 hm
      simp [Program.perform, mcshlock, hp]
    obtain ⟨k', u, hu, hk⟩ := h'.exists_due hg' (by rw [hlog.1, hlog.2]; exact hne)
    rcases hk with hk | hold
    · exact .inr ⟨k', u, hu, by omega⟩
    · -- nobody has the lock now
      exfalso
      by_cases hut : u = t
      · obtain ⟨x, n, hx, -, rfl⟩ := (Program.move_eq_some _).1 hm
        rw [hp] at hx
        obtain rfl := Option.some.inj hx
        rw [hut] at hold
        simp [Program.perform, Pc.Holds] at hold
      · rw [pc_move hm hut] at hold
        exact hut (h.one u t (active_of_holds hold) (by rw [hp]; trivial))

theorem Due.busy {k : Nat} (ht : Due s k t) : mcshlock.Busy s t := by
  intro he
  unfold Due at ht
  rw [he] at ht
  exact ht

/-- So does what is around the threads. -/
theorem Due.around {k : Nat} (hs : mcshlock.Turn s none s') (ht : Due s k t) : Due s' k t := by
  obtain ⟨hpc, hlock, hmem⟩ := hs.around ht.busy
  unfold Due at ht ⊢
  rw [hpc, hlock]
  cases hp : s.pc t with
  | awaitMsg mm | awaitTail mm =>
    rw [hp] at ht
    dsimp only
    rw [hmem mm (congrArg Pc.node hp)]
    exact ht
  | link mm prev =>
    rw [hp] at ht
    obtain ⟨⟨x, rfl, hx⟩, hk⟩ := ht
    refine ⟨⟨x, rfl, ?_⟩, hk⟩
    rw [(hs.around (busy_of_node lawful (congrArg Pc.node hx))).1, hx]
  | _ =>
    rw [hp] at ht
    exact ht

theorem Due.other {k : Nat} {u : ι} {o : Option ι} (h : Inv s q w) (hs : mcshlock.Turn s o s')
    (ho : o ≠ some u) (hu : Due s k u) : Due s' k u := by
  cases hs with
  | access hm => exact h.due_other hm (fun he => ho (congrArg some he.symm)) hu
  | call a ht ha => exact hu.around (.call a ht ha)
  | other a n ha => exact hu.around (.other a n ha)

/-! ## Every run -/

/-- Every run is seen as some list of events. -/
theorem Reached.traced (h : Reached s) :
    ∃ l, Traced (fun s => ∃ mem, s = mcshlock.start init mem) face.Step l s :=
  Reachable.traced (fun _ _ hs => face.exists_step hs) h

/-- **`fjx_mcshlock` is a first-come, first-served lock.** What is seen of a run from
`FJX_MCSH_LOCK_INIT`, the calls that exchange `tail`, those that get the lock and the releases, is
what such a lock may do; the lock is owned by the thread that is between the return from
`fjx_mcshlock_lock` and the store of `fjx_mcshlock_unlock`, and those wait whose calls have taken a
place in the queue and not got it. -/
theorem mcshlock_refines {l : List (FifoLock.Event ι)}
    (h : Traced (fun s => ∃ mem, s = mcshlock.start init mem) face.Step l s) :
    ∃ a, readAll FifoLock.read FifoLock.start l = some a ∧ FifoLock.Kept l a ∧
      (∀ t, a.owner = some t ↔ (s.pc t).Holds) ∧
      ∃ r, s.exchanged = s.entered ++ r ∧ a.waiting = r.map Ref.thread := by
  obtain ⟨a, ha, hs⟩ := face.refines
    (fun s hs => by obtain ⟨mem, rfl⟩ := hs; exact ⟨init, mem, rfl⟩)
    (fun s hs => by obtain ⟨q, w, hi⟩ := Reached.inv hs; exact hi.grants) h
  exact ⟨a, ha, FifoLock.kept ha, hs.owner, hs.waiting⟩

/-- The second of two callers gets the lock from the first one. -/
theorem mcshlock_refines_run : ∃ (l : List (FifoLock.Event Bool)) (s : State Bool Nat),
    Traced (fun s => ∃ mem, s = mcshlock.start init mem) face.Step l s ∧
    s.pc false = .out ∧ s.pc true = .held ∧
    ∃ a, readAll FifoLock.read FifoLock.start l = some a ∧ a.owner = some true := by
  have h₀ : Traced (fun s => ∃ mem, s = mcshlock.start init mem) face.Step []
      (mcshlock.start init fun _ => init : State Bool Nat) := .start ⟨_, rfl⟩
  have h₁ := h₀.next (.call 10 (t := false) rfl (by intro u r hr; cases hr))
  have h₂ := h₁.next (.call 20 (t := true) rfl (by
    intro u r hr
    cases u with
    | false =>
      obtain rfl : _ = r := Option.some.inj hr
      decide
    | true => cases hr))
  obtain ⟨l, h₃⟩ := Face.traced_moves h₂ (rfl : mcshlock.moves _
    [false, false, false, true, true, true, true, false, false, false, false, false, false,
      true, true, true, true] = some _)
  obtain ⟨a, ha, -, ho, -⟩ := mcshlock_refines h₃
  exact ⟨l, _, h₃, rfl, rfl, a, ha, (ho true).2 trivial⟩

theorem Reached.logged (h : Reached s) : face.Logged s := by
  apply Reachable.invariant_from (I := fun s => Live mcshlock s) ?_ ?_ ?_ h
  · intro s hs
    obtain ⟨q, w, hi⟩ := Reached.inv hs
    exact hi.queue.live
  · rintro s ⟨mem, rfl⟩ r hr
    cases hr
  · intro s s' hlive hlog hs
    exact hlog.step lawful hlive hs

/-- In a fair run a call that has taken its place gets the lock. -/
theorem entered_run (ρ : mcshlock.Fair (ι := ι) (A := A)) (hr : ∀ n, Reached (ρ.state n)) {n : Nat}
    {r : Ref ι A} (h : r ∈ (ρ.state n).exchanged) : ∃ m, n ≤ m ∧ r ∈ (ρ.state m).entered := by
  apply Face.served ρ ?_ ?_ h
  · intro n
    obtain ⟨q, w, hi⟩ := (hr n).inv
    rw [hi.fifo]
    exact List.prefix_append _ _
  · intro n hn
    refine Program.advances ρ (D := Due) (fun _ _ _ hd => hd.busy) ?_ ?_ ?_ hn
    · intro n hlt
      obtain ⟨q, w, hi⟩ := (hr n).inv
      obtain ⟨k, t, ht, -⟩ := hi.exists_due (hr n).going (by
        intro he
        rw [he] at hlt
        exact Nat.lt_irrefl _ hlt)
      exact ⟨k, t, ht⟩
    · intro n k t hlt hd hm
      obtain ⟨q, w, hi⟩ := (hr n).inv
      obtain ⟨q', w', hi'⟩ := (hr (n + 1)).inv
      apply hi.due_self hi' (hr (n + 1)).going hm ?_ hd
      intro he
      rw [he] at hlt
      exact Nat.lt_irrefl _ hlt
    · intro n k t hd ho
      obtain ⟨q, w, hi⟩ := (hr n).inv
      exact hd.other hi (ρ.step n) ho

/-- The accesses left before a call takes its place, less one. -/
def Pc.arrives : Pc ι A → Option Nat
  | initTail _ => some 2
  | initMsg _ => some 1
  | exchange _ => some 0
  | _ => none

/-- The accesses left to `fjx_mcshlock_unlock`, less one. -/
def Pc.releases : Pc ι A → Option Nat
  | held => some 1
  | clearMsg _ => some 0
  | _ => none

omit [DecidableEq ι] [DecidableEq A] in
/-- A call takes its place, is in the queue or has left it. -/
theorem cases_of_node {p : Pc ι A} (hp : p.node = some mm) :
    (∃ k, p.arrives = some k) ∨ p.queued = some mm ∨ p.leaving = some mm := by
  cases p with
  | out | held | clearMsg succ => cases hp
  | initTail r | initMsg r | exchange r => exact .inl ⟨_, rfl⟩
  | storeMsg r succ => exact .inr (.inr hp)
  | _ => exact .inr (.inl hp)

theorem Inv.exchanged_of_queued (h : Inv s q w)
    (hp : (s.pc t).queued = some mm ∨ (s.pc t).leaving = some mm) : mm ∈ s.exchanged := by
  rw [h.fifo]
  rcases hp with hp | hp
  · have hthread := h.queue.thread_eq hp
    have hq : mm ∈ q := (h.queue.mem mm).2 (by rw [hthread]; exact hp)
    simp [hq]
  · have hthread : mm.thread = t := by
      refine (h.queue.live.own t mm ?_).1
      cases hpc : s.pc t <;> rw [hpc] at hp <;> first | exact hp | cases hp
    have hw : w = some mm := by
      rw [h.leaving, hthread]
      exact hp
    simp [hw]

/-- **Every call returns.** In a fair run from a state reached from `FJX_MCSH_LOCK_INIT`, in which
the threads go on that are in a call or have the lock, a thread that is in `fjx_mcshlock_lock` has
the lock at some later point, and one that has the lock has returned from `fjx_mcshlock_unlock`,
whatever calls other threads make. -/
theorem mcshlock_served (ρ : mcshlock.Fair (ι := ι) (A := A)) (h0 : Reached (ρ.state 0)) (n : Nat)
    (t : ι) :
    (∀ mm, ((ρ.state n).pc t).node = some mm → ∃ m, n < m ∧ ((ρ.state m).pc t).Holds) ∧
    (((ρ.state n).pc t).Holds → ∃ m, n < m ∧ (ρ.state m).pc t = .out) := by
  have hr : ∀ n, Reached (ρ.state n) := fun n =>
    ρ.always (fun _ _ _ hs hst => hs.next hst.step) (Nat.zero_le n) h0
  constructor
  · intro mm hmm
    have hlive : ∀ n, Live mcshlock (ρ.state n) := by
      intro n
      obtain ⟨q, w, hi⟩ := (hr n).inv
      exact hi.queue.live
    have hnot : ¬ ((ρ.state n).pc t).Holds := by
      intro hold
      cases hp : (ρ.state n).pc t <;> rw [hp] at hmm hold <;> first | exact hold | cases hmm
    refine Face.gets ρ hlive (fun n => (hr n).logged) hmm hnot ?_
    have hserved : ∀ m, n ≤ m →
        (((ρ.state m).pc t).queued = some mm ∨ ((ρ.state m).pc t).leaving = some mm) →
        ∃ m, n ≤ m ∧ mm ∈ (ρ.state m).entered := by
      intro m hm hp
      obtain ⟨q, w, hi⟩ := (hr m).inv
      obtain ⟨m', hm', he⟩ := entered_run ρ hr (hi.exchanged_of_queued hp)
      exact ⟨m', Nat.le_trans hm hm', he⟩
    rcases cases_of_node hmm with ⟨k, hk⟩ | hp
    · obtain ⟨m, hm, hp⟩ := Program.goes ρ
        (R := fun p k => p.arrives = some k ∧ p.node = some mm) (G := fun p => p.queued = some mm)
        (fun k hk => by cases hk.1) (fun p k x hR hx c => by
          obtain ⟨hk, hmm⟩ := hR
          cases p <;> simp only [Pc.arrives, reduceCtorEq, Option.some.injEq] at hk <;>
            obtain rfl := Option.some.inj hx <;> obtain rfl := Option.some.inj hmm
          · exact .inr ⟨1, by omega, rfl, rfl⟩
          · exact .inr ⟨0, by omega, rfl, rfl⟩
          · left
            dsimp only
            split <;> rfl) ⟨hk, hmm⟩
      exact hserved m (Nat.le_of_lt hm) (.inl hp)
    · exact hserved n (Nat.le_refl n) hp
  · intro hold
    obtain ⟨k, hk⟩ : ∃ k, ((ρ.state n).pc t).releases = some k := by
      cases hp : (ρ.state n).pc t <;> rw [hp] at hold <;> first | exact ⟨_, rfl⟩ | exact hold.elim
    refine Program.goes ρ (R := fun p k => p.releases = some k) (G := fun p => p = .out)
      (fun k hk => by cases hk) (fun p k x hk hx c => ?_) hk
    cases p <;> simp only [Pc.releases, reduceCtorEq, Option.some.injEq] at hk <;>
      obtain rfl := Option.some.inj hx
    · exact .inr ⟨0, by omega, rfl⟩
    · exact .inl rfl

/-- Of two callers the second one, which has just called, gets the lock. -/
theorem mcshlock_served_run : ∃ ρ : mcshlock.Fair (ι := Bool) (A := Nat),
    (ρ.state 0).pc true = .initTail ⟨true, 1, 20⟩ ∧ ∃ m, 0 < m ∧ ((ρ.state m).pc true).Holds := by
  have h₀ : Reached (mcshlock.start init fun _ => init : State Bool Nat) := .start ⟨_, rfl⟩
  have h₁ := h₀.next (.call 10 (t := false) rfl (by intro u r hr; cases hr))
  have h₂ := h₁.next (.call 20 (t := true) rfl (by
    intro u r hr
    cases u with
    | false =>
      obtain rfl : _ = r := Option.some.inj hr
      decide
    | true => cases hr))
  obtain ⟨ρ, hρ, hr⟩ := Program.fair_moves h₂ (rfl : mcshlock.moves _
    [false, false, false, true, true, true, true, false, false, false, false, false, false,
      true, true, true, true, true, true] = some _) 0
    (by intro u r hr; cases u <;> cases hr) (by intro u; cases u <;> rfl)
  have hpc : (ρ.state 0).pc true = .initTail ⟨true, 1, 20⟩ := by
    rw [hρ]
    rfl
  refine ⟨ρ, hpc, (mcshlock_served ρ hr 0 true).1 ⟨true, 1, 20⟩ ?_⟩
  rw [hpc]
  rfl

end Spin.Mcshlock
