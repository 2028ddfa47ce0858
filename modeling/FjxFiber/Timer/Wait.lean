import FjxFiber.Timer.ThreadInv

/-!
# The timer thread does not oversleep

While the mutex is free and the timer thread waits unsignalled, it waits for the earliest deadline,
or without one for a first node (`Waits`); and before it waits it has looked.
-/

set_option autoImplicit false

namespace Timer

open Lib Lib.StableQueue

variable {α : Type*} [DecidableEq α] {O : ListOps (Ptr α)} {S : Splay α}
  {s s' u u' : RunState α} {a : α} {p : Call} {deadline : Option Timespec}

/-! ## What the timer thread waits for -/

/-- Some call has inserted the earliest node and is about to signal. -/
def RunState.Signals (s : RunState α) : Prop := ∃ a n, s.call a = .signal n

/-- A wait is for the earliest deadline, or the timer thread is about to be signalled. -/
def Waits (s : RunState α) : Prop :=
  ∀ deadline, s.loop = .blocked deadline →
    s.queue.head?.map Entry.key = deadline ∨ s.Signals

theorem Signals.update (h : s.Signals) (ha : ∀ n, s.call a ≠ .signal n)
    (hc : s'.call = Function.update s.call a p) : s'.Signals := by
  obtain ⟨b, n, hb⟩ := h
  refine ⟨b, n, ?_⟩
  rw [hc, Function.update_of_ne, hb]
  intro he
  exact ha n (he ▸ hb)

/-- A call that is not about to signal goes on. -/
theorem Waits.call (h : Waits s) {q : Call} (ha : s.call a = q) (hne : ∀ n, q ≠ .signal n)
    (hc : s'.call = Function.update s.call a p) (hl : s'.loop = s.loop)
    (hq : s'.queue = s.queue) : Waits s' := by
  subst ha
  intro deadline hb
  rw [hl] at hb
  rw [hq]
  exact (h deadline hb).imp_right fun hsig => Signals.update hsig hne hc

omit [DecidableEq α] in
theorem waits_of (hne : ∀ deadline, s.loop ≠ .blocked deadline) : Waits s := by
  intro deadline hb
  exact absurd hb (hne deadline)

/-- The insertion reports the earliest node, or the earliest deadline stays. -/
theorem Nodes.head_insert (h : Nodes s) {c0 d : Timespec} (ha : s.call a = .add c0 d)
    {r : Inserted α} (hr : insertTimeNode O S a s.timer = some r) :
    r.earliest = true ∨
      (insertStable (Sleep.entry ⟨a, c0, d⟩ s.sleeps.length) s.queue).head? = s.queue.head? := by
  obtain ⟨href, hearly⟩ := h.inserted ha hr
  by_cases he : r.earliest = true
  · exact .inl he
  · refine .inr ?_
    rw [h.refines.stable.head?_insertStable]
    split
    · next hu =>
      refine absurd (hearly.2 ?_) he
      rw [href.minTime, h.refines.stable.head?_insertStable, if_pos hu]
      rfl
    · rfl

theorem Waits.step (hm : Mutex s) (hn : Nodes s) (h : Waits s) (hs : Run O S s s') : Waits s' := by
  cases hs with
  | sleep a d hc => exact h.call hc nofun rfl rfl rfl
  | first c0 hc hc0 => exact h.call hc nofun rfl rfl rfl
  | late cur hc hcn hcur => exact h.call hc nofun rfl rfl rfl
  | early cur hc hcn hcur => exact h.call hc nofun rfl rfl rfl
  | addLock hc hmtx => exact h.call hc nofun rfl rfl rfl
  | @add a c0 d r hc hr =>
    intro deadline hb
    rcases hn.head_insert hc hr with hearly | hhead
    · refine .inr ⟨a, s.sleeps.length, ?_⟩
      show Function.update s.call a _ a = _
      rw [Function.update_self, if_pos hearly]
    · rcases h deadline hb with hkey | ⟨b, n, hsig⟩
      · refine .inl ?_
        show Option.map _ (insertStable _ s.queue).head? = _
        rw [hhead, hkey]
      · -- the other call would hold the mutex as well
        have hne : b ≠ a := by
          rintro rfl
          rw [hc] at hsig
          cases hsig
        have hh := (hm.sole (a := a) (by rw [hc]; rfl)).2 b hne
        rw [hsig] at hh
        cases hh
  | signal hc =>
    apply waits_of
    intro deadline hb
    have hl : s.loop.notified = .blocked deadline := hb
    cases hs : s.loop <;> rw [hs] at hl <;> cases hl
  | addUnlock hc => exact h.call hc nofun rfl rfl rfl
  | wake hc => exact h.call hc nofun rfl rfl rfl
  | testEmpty hl ht =>
    intro deadline hb
    cases hb
    refine .inl ?_
    have hw := hn.refines.walk
    rw [ht] at hw
    have hq : s.queue = [] := List.map_eq_nil_iff.1 hw.symm
    show s.queue.head?.map Entry.key = none
    rw [hq]
    rfl
  | @waitTimed m cur hl hcn hmin hcur =>
    intro deadline hb
    cases hb
    refine .inl ?_
    rw [hn.refines.minTime] at hmin
    obtain ⟨x, hx, rfl⟩ := Option.map_eq_some_iff.1 hmin
    show s.queue.head?.map Entry.key = some (s.timer.tp x.val)
    rw [hx, hn.refines.tp x (List.mem_of_mem_head? hx)]
    rfl
  | enqueue hl => exact waits_of nofun
  | relock hl hmtx =>
    apply waits_of
    intro deadline hb
    have hl : (if _ then Loop.readClock else Loop.retest) = Loop.blocked deadline := hb
    split at hl <;> cases hl
  | lock | testFull | retestFull | pass | spurious | unlock | again => exact waits_of nofun
  | relink links hkeep => exact h

theorem RunReached.waits (h : RunReached O S s) : Waits s := by
  refine h.invariant_from (fun _ => RunReached.inv) ?_ fun _ _ hi hw hs => hw.step hi.1 hi.2 hs
  rintro s ⟨timer, rfl⟩ deadline hb
  cases hb

/-! ## What it looks at before it waits -/

/-- The step in which the timer thread, with the mutex, begins to wait: without a deadline because
it found the tree empty, or for the deadline of `min_time`, which it has just read. -/
def Looks (O : ListOps (Ptr α)) (S : Splay α) (u u' : RunState α) : Prop :=
  Run O S u u' ∧ u.mtx = some .timer ∧
    ((u'.loop = .blocked none ∧ u.timer.timeTree = .nil) ∨
      u.loop = .readClock ∧ ∃ m, u.timer.minTime = some m ∧
        u'.loop = .blocked (some (u.timer.tp m)))

theorem Run.looks (hm : Mutex u) (hs : Run O S u u') (hb : u'.loop = .blocked deadline) :
    u.loop = .blocked deadline ∨ Looks O S u u' := by
  have hstep := hs
  have hheld : u.loop.holds = true → u.mtx = some .timer := hm.loop.2
  cases hs with
  | testEmpty hl ht =>
    refine .inr ⟨hstep, hheld ?_, .inl ⟨rfl, ht⟩⟩
    rcases hl with hl | hl <;> rw [hl] <;> rfl
  | @waitTimed m cur hl hcn hmin hcur =>
    exact .inr ⟨hstep, hheld (by rw [hl]; rfl), .inr ⟨hl, m, hmin, rfl⟩⟩
  | signal hc =>
    have hl : u.loop.notified = .blocked deadline := hb
    cases hu : u.loop <;> rw [hu] at hl <;> cases hl
  | relock hl hmtx =>
    have hl : (if _ then Loop.readClock else Loop.retest) = Loop.blocked deadline := hb
    split at hl <;> cases hl
  | lock | testFull | retestFull | pass | spurious | unlock | enqueue | again => cases hb
  | sleep | first | late | early | addLock | add | addUnlock | wake | relink => exact .inl hb

/-- A timer thread that is not waiting looks before it waits. -/
theorem RunReached.looks (h : RunReached O S s) (hn : ∀ deadline, s.loop ≠ .blocked deadline)
    (hr : Relation.ReflTransGen (Run O S) s s') (hb : s'.loop = .blocked deadline) :
    ∃ u u', Relation.ReflTransGen (Run O S) s u ∧ Looks O S u u' ∧
      u'.loop = .blocked deadline ∧ Relation.ReflTransGen (Run O S) u' s' := by
  induction hr with
  | refl => exact absurd hb (hn deadline)
  | @tail b c hsb hs ih =>
    have hm : Mutex b := (RunReached.inv (h.run hsb)).1
    rcases hs.looks hm hb with hb' | hl
    · obtain ⟨u, u', h1, h2, h3, h4⟩ := ih hb'
      exact ⟨u, u', h1, h2, h3, h4.tail hs⟩
    · exact ⟨b, c, hsb, hl, hb, .refl⟩

/-! ## The result -/

omit [DecidableEq α] in
/-- `min_time` is the first of the nodes in the store. -/
theorem Refines.min_le {timer : FiberTimer α} {q : List (Entry Timespec α)} (h : Refines timer q)
    {x : Entry Timespec α} (hx : q.head? = some x) : ∀ b ∈ timer.timeTree.inorder,
    x.key ≤ timer.tp b := by
  intro b hb
  rw [h.walk] at hb
  obtain ⟨e, he, rfl⟩ := List.mem_map.1 hb
  rw [h.tp e he]
  obtain ⟨l, rfl⟩ : ∃ l, q = x :: l := by
    rcases q with _ | ⟨y, l⟩
    · cases hx
    · cases hx
      exact ⟨l, rfl⟩
  rcases List.mem_cons.1 he with rfl | he
  · exact le_refl _
  · rcases (List.pairwise_cons.1 h.stable).1 e he with hlt | ⟨heq, -⟩
    · exact le_of_lt hlt
    · exact le_of_eq heq

/-- While the mutex is free, the timer thread waits for the earliest deadline. -/
theorem RunReached.blocked (h : RunReached O S s) (hm : s.mtx = none)
    (hb : s.loop = .blocked deadline) :
    (deadline = none ∧ s.timer.timeTree = .nil) ∨
      ∃ m, s.timer.minTime = some m ∧ deadline = some (s.timer.tp m) ∧
        ∀ b ∈ s.timer.timeTree.inorder, s.timer.tp m ≤ s.timer.tp b := by
  obtain ⟨hmtx, hn⟩ := RunReached.inv h
  have hkey : s.queue.head?.map Entry.key = deadline := by
    rcases RunReached.waits h deadline hb with hkey | ⟨a, n, ha⟩
    · exact hkey
    · have hh := (hmtx.free hm).2 a
      rw [ha] at hh
      cases hh
  cases hq : s.queue.head? with
  | none =>
    rw [hq] at hkey
    refine .inl ⟨hkey.symm, ?_⟩
    have hw := hn.refines.walk
    rw [List.head?_eq_none_iff.1 hq] at hw
    exact BinTree.inorder_eq_nil.1 hw
  | some x =>
    have htp := hn.refines.tp x (List.mem_of_mem_head? hq)
    rw [hq] at hkey
    refine .inr ⟨x.val, ?_, ?_, ?_⟩
    · rw [hn.refines.minTime, hq]
      rfl
    · rw [htp, ← hkey]
      rfl
    · rw [htp]
      exact hn.refines.min_le hq

/-- An insertion that changes the earliest deadline says so. -/
theorem RunReached.insert (h : RunReached O S s) {c0 d : Timespec} (ha : s.call a = .add c0 d) :
    ∃ r, insertTimeNode O S a s.timer = some r ∧
      (r.timer.minTime.map r.timer.tp ≠ s.timer.minTime.map s.timer.tp → r.earliest = true) := by
  have hn := (RunReached.inv h).2
  obtain ⟨r, hr, -⟩ := hn.insertion O S ha
  refine ⟨r, hr, ?_⟩
  intro hne
  rcases hn.head_insert ha hr with he | hhead
  · exact he
  · refine absurd ?_ hne
    rw [(hn.inserted ha hr).1.minTime, hn.refines.minTime, hhead, insertTimeNode_tp hr]

/-- **The timer thread does not oversleep.** In every reachable state

* if the mutex is free and the timer thread waits, neither signalled nor timed out, it waits without
  a deadline and the tree is empty, or for the deadline of `min_time`, which is the smallest;
* if it does not wait, then every step in which it begins to wait without a deadline finds the tree
  empty, and every step in which it begins to wait for a deadline has read `min_time`; so it has
  looked on every way to a state in which it waits;
* `insert_time_node` returns true when it changes the earliest deadline. -/
theorem timer_waits (h : RunReached O S s) :
    (s.mtx = none → ∀ deadline, s.loop = .blocked deadline →
      (deadline = none ∧ s.timer.timeTree = .nil) ∨
        ∃ m, s.timer.minTime = some m ∧ deadline = some (s.timer.tp m) ∧
          ∀ b ∈ s.timer.timeTree.inorder, s.timer.tp m ≤ s.timer.tp b) ∧
    ((∀ deadline, s.loop ≠ .blocked deadline) → ∀ s' deadline, Run O S s s' →
      s'.loop = .blocked deadline → Looks O S s s') ∧
    ((∀ deadline, s.loop ≠ .blocked deadline) → ∀ s' deadline,
      Relation.ReflTransGen (Run O S) s s' → s'.loop = .blocked deadline →
        ∃ u u', Relation.ReflTransGen (Run O S) s u ∧ Looks O S u u' ∧
          u'.loop = .blocked deadline ∧ Relation.ReflTransGen (Run O S) u' s') ∧
    ∀ a c0 d, s.call a = .add c0 d → ∃ r, insertTimeNode O S a s.timer = some r ∧
      (r.timer.minTime.map r.timer.tp ≠ s.timer.minTime.map s.timer.tp → r.earliest = true) :=
  ⟨fun hm _ hb => RunReached.blocked h hm hb,
    fun hn _ deadline hs hb => (hs.looks (RunReached.inv h).1 hb).resolve_left (hn deadline),
    fun hn _ _ hr hb => RunReached.looks h hn hr hb, fun _ _ _ ha => RunReached.insert h ha⟩

/-- A call inserts the first node while the timer thread waits without a deadline, and signals it;
now it waits for that node. -/
theorem timer_waits_run : ∃ s : RunState Nat,
    RunReached (.pointers (Ptr Nat)) (.rotations Nat) s ∧ s.mtx = none ∧
      s.loop = .blocked (some ⟨5, 0⟩) ∧ ∃ m, s.timer.minTime = some m ∧
        some ⟨5, 0⟩ = some (s.timer.tp m) ∧
        ∀ b ∈ s.timer.timeTree.inorder, s.timer.tp m ≤ s.timer.tp b := by
  let timer : FiberTimer Nat :=
    { timeTree := .nil, minTime := none, maxTime := none, links := ⟨id, id⟩,
      tp := fun _ => ⟨0, 0⟩ }
  have hn : ∀ n : Int, Timespec.Normal ⟨n, 0⟩ := by
    intro n
    exact ⟨Int.le_refl 0, show (0 : Int) < gigaConstant by decide⟩
  have h0 : RunReached (.pointers (Ptr Nat)) (.rotations Nat)
      ⟨fiberTimerInit _ timer, none, .lock, fun _ => .out, [], [], [], [], []⟩ :=
    .start ⟨timer, rfl⟩
  have h1 := h0.next (.lock rfl rfl) |>.next (.testEmpty (.inl rfl) rfl)
    |>.next (.sleep 0 ⟨5, 0⟩ rfl) |>.next (.first (a := 0) ⟨0, 0⟩ rfl (hn 0))
    |>.next (.early (a := 0) ⟨0, 0⟩ rfl (hn 0) (by decide)) |>.next (.addLock (a := 0) rfl rfl)
  obtain ⟨s, hs, hcall, hloop, hq, hlen⟩ : ∃ s : RunState Nat,
      RunReached (.pointers (Ptr Nat)) (.rotations Nat) s ∧ s.call 0 = .add ⟨0, 0⟩ ⟨5, 0⟩ ∧
      s.loop = .blocked none ∧ s.queue = [] ∧ s.sleeps = [] := ⟨_, h1, rfl, rfl, rfl, rfl⟩
  obtain ⟨r, hr, href, hearly⟩ := (RunReached.inv hs).2.insertion _ _ hcall
  rw [hq] at href
  have hmin : r.timer.minTime = some 0 := href.minTime
  have htp : r.timer.tp 0 = ⟨5, 0⟩ := href.tp _ List.mem_cons_self
  have htree : r.timer.timeTree ≠ .nil := by
    intro he
    have hw := href.walk
    rw [he] at hw
    cases hw
  have he : r.earliest = true := hearly.2 hmin
  have hadd := Run.add hcall hr
  rw [if_pos he] at hadd
  have h2 := (hs.next hadd).next (.signal (a := 0) (n := s.sleeps.length) rfl)
    |>.next (.addUnlock (a := 0) (n := s.sleeps.length) rfl)
  have hwoken : s.loop.notified = .woken none := by rw [hloop]; rfl
  obtain ⟨u, hu, htimer, hmtx, hul⟩ : ∃ u : RunState Nat,
      RunReached (.pointers (Ptr Nat)) (.rotations Nat) u ∧ u.timer = r.timer ∧ u.mtx = none ∧
      u.loop = .woken none := ⟨_, h2, rfl, rfl, hwoken⟩
  rw [← htimer] at hmin htp htree
  have h3 := hu.next (.relock hul hmtx) |>.next (.retestFull rfl htree) |>.next (.unlock rfl)
    |>.next (.again rfl)
  obtain ⟨v, hv, htimer, hmtx, hvl⟩ : ∃ v : RunState Nat,
      RunReached (.pointers (Ptr Nat)) (.rotations Nat) v ∧ v.timer = u.timer ∧ v.mtx = none ∧
      v.loop = .lock := ⟨_, h3, rfl, rfl, rfl⟩
  rw [← htimer] at hmin htp htree
  have hcur : timespecComp ⟨1, 0⟩ (v.timer.tp 0) = true := by rw [htp]; decide
  have h4 := hv.next (.lock hvl hmtx) |>.next (.testFull rfl htree)
    |>.next (.waitTimed ⟨1, 0⟩ rfl (hn 1) hmin hcur)
  have hb : Loop.blocked (α := Nat) (some (v.timer.tp 0)) = .blocked (some ⟨5, 0⟩) := by rw [htp]
  refine ⟨_, h4, rfl, hb, ?_⟩
  rcases (timer_waits h4).1 rfl _ hb with ⟨hnone, -⟩ | hsome
  · cases hnone
  · exact hsome

/-- The untimed wait: from its start, with the mutex free, the timer thread comes to wait on the
empty store without reading `min_time`, which it does only at `readClock`. -/
theorem timer_untimed : ∃ s s' : RunState Nat,
    RunReached (.pointers (Ptr Nat)) (.rotations Nat) s ∧ s.mtx = none ∧
      (∀ deadline, s.loop ≠ .blocked deadline) ∧
      Relation.ReflTransGen (fun u u' => Run (.pointers (Ptr Nat)) (.rotations Nat) u u' ∧
        u.loop ≠ .readClock) s s' ∧ s'.loop = .blocked none := by
  let timer : FiberTimer Nat :=
    { timeTree := .nil, minTime := none, maxTime := none, links := ⟨id, id⟩,
      tp := fun _ => ⟨0, 0⟩ }
  have h0 : RunReached (.pointers (Ptr Nat)) (.rotations Nat)
      ⟨fiberTimerInit _ timer, none, .lock, fun _ => .out, [], [], [], [], []⟩ :=
    .start ⟨timer, rfl⟩
  exact ⟨_, _, h0, rfl, nofun, (Relation.ReflTransGen.refl.tail ⟨.lock rfl rfl, nofun⟩).tail
    ⟨.testEmpty (.inl rfl) rfl, nofun⟩, rfl⟩

end Timer
