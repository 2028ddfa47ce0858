import FjxFiber.Timer.Thread

/-!
# The invariant of the timer thread and the sleeping calls

Two parts, each kept by every step: who holds the mutex (`Mutex`), and where the nodes are
(`Nodes`).
-/

set_option autoImplicit false

namespace Timer

open Lib Lib.StableQueue Lib.Links

variable {α : Type*} {s s' : RunState α} {a b : α} {p : Call}

/-! ## The parts -/

structure Mutex (s : RunState α) : Prop where
  loop : s.mtx = some .timer ↔ s.loop.holds = true
  call : ∀ a, s.mtx = some (.call a) ↔ (s.call a).holds = true

/-- The store holds the queue, and the nodes in the store and on `awake_list` are those of calls
that have inserted them. -/
structure Nodes (s : RunState α) : Prop where
  refines : Refines s.timer s.queue
  seq : ∀ e ∈ s.queue ++ s.loop.awakeList, e.seq < s.sleeps.length
  distinct : ((s.queue ++ s.loop.awakeList).map Entry.seq).Nodup
  tp : ∀ a c0 d, (s.call a).deadline = some (c0, d) → s.timer.tp a = fiberSleep c0 d
  placed : ∀ e ∈ s.queue, (s.call e.val).inserted = some e.seq
  asleep : ∀ e ∈ s.loop.awakeList, s.call e.val = .asleep e.seq

/-! ## The mutex -/

/-- Nobody takes or releases the mutex. -/
theorem Mutex.keep (h : Mutex s) (hm : s'.mtx = s.mtx) (hl : s'.loop.holds = s.loop.holds)
    (hc : ∀ b, (s'.call b).holds = (s.call b).holds) : Mutex s' where
  loop := by rw [hm, hl, h.loop]
  call b := by rw [hm, hc, h.call]

theorem Mutex.free (h : Mutex s) (hm : s.mtx = none) :
    s.loop.holds = false ∧ ∀ a, (s.call a).holds = false := by
  refine ⟨?_, ?_⟩
  · have hl := h.loop
    rw [hm] at hl
    simpa using hl
  · intro a
    have ha := h.call a
    rw [hm] at ha
    simpa using ha

/-- While one call holds the mutex, neither another call nor the timer thread does. -/
theorem Mutex.sole (h : Mutex s) (ha : (s.call a).holds = true) :
    s.loop.holds = false ∧ ∀ b, b ≠ a → (s.call b).holds = false := by
  have hm := (h.call a).2 ha
  refine ⟨?_, ?_⟩
  · have hl := h.loop
    rw [hm] at hl
    simpa using hl
  · intro b hb
    have hc := h.call b
    rw [hm] at hc
    simpa [Ne.symm hb] using hc

theorem Mutex.timer_sole (h : Mutex s) (hl : s.loop.holds = true) (a : α) :
    (s.call a).holds = false := by
  have hm := h.loop.2 hl
  have ha := h.call a
  rw [hm] at ha
  simpa using ha

/-- The timer thread takes the mutex. -/
theorem Mutex.lock (h : Mutex s) (hm : s.mtx = none) (hm' : s'.mtx = some .timer)
    (hl : s'.loop.holds = true) (hc : s'.call = s.call) : Mutex s' where
  loop := by simp [hm', hl]
  call a := by simp [hm', hc, (h.free hm).2 a]

/-- The timer thread releases the mutex. -/
theorem Mutex.unlock (h : Mutex s) (hl : s.loop.holds = true) (hm' : s'.mtx = none)
    (hl' : s'.loop.holds = false) (hc : s'.call = s.call) : Mutex s' where
  loop := by simp [hm', hl']
  call a := by simp [hm', hc, h.timer_sole hl a]

theorem Loop.notified_holds (l : Loop α) : l.notified.holds = l.holds := by cases l <;> rfl

variable [DecidableEq α] {O : ListOps (Ptr α)} {S : Splay α}

theorem holds_update {f : α → Call} (hp : p.holds = (f a).holds) (b : α) :
    (Function.update f a p b).holds = (f b).holds := by
  by_cases hb : b = a
  · subst hb
    rw [Function.update_self, hp]
  · rw [Function.update_of_ne hb]

theorem Mutex.step (h : Mutex s) (hn : Nodes s) (hs : Run O S s s') : Mutex s' := by
  have hgoto : ∀ {a : α} {p q : Call}, s.call a = q → p.holds = q.holds →
      ∀ b, (Function.update s.call a p b).holds = (s.call b).holds := by
    intro a p q hq hp
    exact holds_update (by rw [hq, hp])
  cases hs with
  | sleep a d hc => exact h.keep rfl rfl (hgoto hc rfl)
  | first c0 hc hn => exact h.keep rfl rfl (hgoto hc rfl)
  | late cur hc hn hcur => exact h.keep rfl rfl (hgoto hc rfl)
  | early cur hc hn hcur => exact h.keep rfl rfl (hgoto hc rfl)
  | @addLock a c0 d hc hm =>
    obtain ⟨hl, hf⟩ := h.free hm
    refine ⟨?_, ?_⟩
    · show some (Holder.call a) = some .timer ↔ s.loop.holds = true
      simp [hl]
    · intro b
      show some (Holder.call a) = some (.call b) ↔
        (Function.update s.call a (.add c0 d) b).holds = true
      by_cases hb : b = a
      · subst hb
        simp [Call.holds]
      · simp [hb, Ne.symm hb, hf b]
  | add hc hr =>
    refine h.keep rfl rfl (hgoto hc ?_)
    split <;> rfl
  | signal hc => exact h.keep rfl (Loop.notified_holds _) (hgoto hc rfl)
  | @addUnlock a n hc =>
    obtain ⟨hl, hf⟩ := h.sole (a := a) (by rw [hc]; rfl)
    refine ⟨?_, ?_⟩
    · show none = some Holder.timer ↔ s.loop.holds = true
      simp [hl]
    · intro b
      show none = some (Holder.call b) ↔ (Function.update s.call a (.asleep n) b).holds = true
      by_cases hb : b = a
      · subst hb
        simp [Call.holds]
      · simp [hb, hf b hb]
  | wake hc => exact h.keep rfl rfl (hgoto hc rfl)
  | lock hl hm => exact h.lock hm rfl rfl rfl
  | testEmpty hl ht =>
    refine h.unlock ?_ rfl rfl rfl
    rcases hl with hl | hl <;> rw [hl] <;> rfl
  | testFull hl ht => exact h.keep rfl (by rw [hl]; rfl) fun _ => rfl
  | retestFull hl ht => exact h.keep rfl (by rw [hl]; rfl) fun _ => rfl
  | waitTimed cur hl hn hm hcur => exact h.unlock (by rw [hl]; rfl) rfl rfl rfl
  | pass cur hl hn hm hcur hr => exact h.keep rfl (by rw [hl]; rfl) fun _ => rfl
  | spurious hl => exact h.keep rfl (by rw [hl]; rfl) fun _ => rfl
  | relock hl hm =>
    refine h.lock hm rfl ?_ rfl
    show Loop.holds (if _ then _ else _) = true
    split <;> rfl
  | unlock hl => exact h.unlock (by rw [hl]; rfl) rfl rfl rfl
  | @enqueue e awake hl =>
    have ha : s.call e.val = .asleep e.seq := hn.asleep e (by rw [hl]; exact List.mem_cons_self)
    exact h.keep rfl (by rw [hl]; rfl) (hgoto ha rfl)
  | again hl => exact h.keep rfl (by rw [hl]; rfl) fun _ => rfl
  | relink links hkeep => exact h.keep rfl rfl fun _ => rfl

/-! ## The nodes -/

omit [DecidableEq α] in
/-- A node that is linked nowhere may be inserted. -/
theorem Nodes.fresh (h : Nodes s) (ha : (s.call a).inserted = none) :
    ∀ e ∈ s.queue, e.val ≠ a := by
  rintro e he rfl
  rw [h.placed e he] at ha
  cases ha

omit [DecidableEq α] in
theorem Nodes.notMem (h : Nodes s) (ha : (s.call a).inserted = none) :
    a ∉ s.timer.timeTree.inorder := by
  rw [h.refines.walk]
  intro hm
  obtain ⟨e, he, rfl⟩ := List.mem_map.1 hm
  exact h.fresh ha e he rfl

omit [DecidableEq α] in
/-- Only the timer thread goes on, and `awake_list` stays. -/
theorem Nodes.loop (h : Nodes s) (hl : s'.loop.awakeList = s.loop.awakeList)
    (ht : s'.timer = s.timer) (hq : s'.queue = s.queue) (hc : s'.call = s.call)
    (hs : s'.sleeps = s.sleeps) : Nodes s' where
  refines := by rw [ht, hq]; exact h.refines
  seq := by rw [hq, hl, hs]; exact h.seq
  distinct := by rw [hq, hl]; exact h.distinct
  tp := by rw [hc, ht]; exact h.tp
  placed := by rw [hq, hc]; exact h.placed
  asleep := by rw [hl, hc]; exact h.asleep

/-- A call goes on, and neither the store nor `awake_list` changes. -/
theorem Nodes.call (h : Nodes s) {q : Call} (ha : s.call a = q)
    (hc : s'.call = Function.update s.call a p) (hn : ∀ n, q ≠ .asleep n)
    (hi : p.inserted = q.inserted)
    (hd : ∀ c0 d, p.deadline = some (c0, d) → q.deadline = some (c0, d))
    (ht : s'.timer = s.timer) (hq : s'.queue = s.queue)
    (hl : s'.loop.awakeList = s.loop.awakeList) (hs : s'.sleeps = s.sleeps) : Nodes s' := by
  subst ha
  refine ⟨?_, ?_, ?_, ?_, ?_, ?_⟩
  · rw [ht, hq]
    exact h.refines
  · rw [hq, hl, hs]
    exact h.seq
  · rw [hq, hl]
    exact h.distinct
  · rw [ht, hc]
    exact (Function.forall_update_iff s.call fun b q => ∀ c0 d, q.deadline = some (c0, d) →
      s.timer.tp b = fiberSleep c0 d).2
      ⟨fun c0 d hb => h.tp a c0 d (hd c0 d hb), fun b _ => h.tp b⟩
  · intro e he
    rw [hq] at he
    rw [hc]
    by_cases hb : e.val = a
    · rw [hb, Function.update_self, hi, ← hb]
      exact h.placed e he
    · rw [Function.update_of_ne hb]
      exact h.placed e he
  · intro e he
    rw [hl] at he
    have hs := h.asleep e he
    rw [hc, Function.update_of_ne, hs]
    intro hb
    exact hn e.seq (hb ▸ hs)

theorem insertTimeNode_tp {timer : FiberTimer α} {r : Inserted α}
    (h : insertTimeNode O S a timer = some r) : r.timer.tp = timer.tp := by
  unfold insertTimeNode at h
  split at h
  · cases h
    rfl
  · simp only [Option.bind_eq_bind, Option.bind_eq_some_iff] at h
    obtain ⟨m, -, m', -, h⟩ := h
    split at h
    · cases h
      rfl
    · split at h
      · cases h
        rfl
      · obtain ⟨⟨q, side⟩, -, h⟩ := Option.bind_eq_some_iff.1 h
        cases h
        rfl

theorem expire_tp {timer timer' : FiberTimer α} {cur : Timespec}
    (h : expire O S cur timer = some timer') : timer'.tp = timer.tp := by
  unfold expire at h
  simp only [Option.bind_eq_bind, Option.bind_eq_some_iff] at h
  obtain ⟨m, -, h⟩ := h
  split at h
  · cases h
    rfl
  · obtain ⟨up, -, h⟩ := Option.bind_eq_some_iff.1 h
    cases h
    rfl

theorem Nodes.insertion (O : ListOps (Ptr α)) (S : Splay α) (h : Nodes s) {c0 d : Timespec}
    (ha : s.call a = .add c0 d) : ∃ r, insertTimeNode O S a s.timer = some r ∧
      Refines r.timer (insertStable (Sleep.entry ⟨a, c0, d⟩ s.sleeps.length) s.queue) ∧
      (r.earliest = true ↔ r.timer.minTime = some a) := by
  have hfresh := h.fresh (a := a) (by rw [ha]; rfl)
  have hseq : ∀ x ∈ s.queue, x.seq < s.sleeps.length := by
    intro x hx
    exact h.seq x (List.mem_append_left _ hx)
  have htp : s.timer.tp a = fiberSleep c0 d := h.tp a c0 d (by rw [ha]; rfl)
  obtain ⟨r, hr, -, href, hearly⟩ :=
    insertTimeNode_spec (e := Sleep.entry ⟨a, c0, d⟩ s.sleeps.length) O S h.refines hfresh hseq htp
  exact ⟨r, hr, href, hearly⟩

theorem Nodes.inserted (h : Nodes s) {c0 d : Timespec} (ha : s.call a = .add c0 d) {r : Inserted α}
    (hr : insertTimeNode O S a s.timer = some r) :
    Refines r.timer (insertStable (Sleep.entry ⟨a, c0, d⟩ s.sleeps.length) s.queue) ∧
      (r.earliest = true ↔ r.timer.minTime = some a) := by
  obtain ⟨r', hr', hspec⟩ := h.insertion O S ha
  obtain rfl := Option.some.inj (hr.symm.trans hr')
  exact hspec

theorem Nodes.add (h : Nodes s) {c0 d : Timespec} (ha : s.call a = .add c0 d) {r : Inserted α}
    (hr : insertTimeNode O S a s.timer = some r) (ht : s'.timer = r.timer)
    (hc : s'.call = Function.update s.call a p) (hp : p.inserted = some s.sleeps.length)
    (hd : p.deadline = none)
    (hq : s'.queue = insertStable (Sleep.entry ⟨a, c0, d⟩ s.sleeps.length) s.queue)
    (hl : s'.loop = s.loop) (hs : s'.sleeps = s.sleeps ++ [⟨a, c0, d⟩]) : Nodes s' where
  refines := by
    rw [ht, hq]
    exact (h.inserted ha hr).1
  seq := by
    intro e he
    rw [hq, hl] at he
    rw [hs, List.length_append, List.length_singleton]
    rcases List.mem_append.1 he with he | he
    · rcases mem_insertStable.1 he with rfl | he
      · exact Nat.lt_succ_self _
      · exact Nat.lt_succ_of_lt (h.seq e (List.mem_append_left _ he))
    · exact Nat.lt_succ_of_lt (h.seq e (List.mem_append_right _ he))
  distinct := by
    rw [hq, hl]
    have hperm := (insertStable_perm (Sleep.entry ⟨a, c0, d⟩ s.sleeps.length) s.queue).append_right
      s.loop.awakeList
    refine (hperm.map Entry.seq).nodup_iff.2 (List.nodup_cons.2 ⟨?_, h.distinct⟩)
    intro hm
    obtain ⟨x, hx, hxe⟩ := List.mem_map.1 hm
    have hlt := h.seq x hx
    rw [hxe] at hlt
    exact Nat.lt_irrefl _ hlt
  tp := by
    rw [ht, insertTimeNode_tp hr, hc]
    refine (Function.forall_update_iff s.call fun b q => ∀ c1 d1, q.deadline = some (c1, d1) →
      s.timer.tp b = fiberSleep c1 d1).2 ⟨?_, fun b _ => h.tp b⟩
    intro c1 d1 hb
    rw [hd] at hb
    cases hb
  placed := by
    intro e he
    rw [hq] at he
    rw [hc]
    rcases mem_insertStable.1 he with rfl | he
    · show (Function.update s.call a p a).inserted = some s.sleeps.length
      rw [Function.update_self, hp]
    · rw [Function.update_of_ne (h.fresh (a := a) (by rw [ha]; rfl) e he)]
      exact h.placed e he
  asleep := by
    intro e he
    rw [hl] at he
    have hs := h.asleep e he
    rw [hc, Function.update_of_ne, hs]
    intro hb
    rw [hb, ha] at hs
    cases hs

omit [DecidableEq α] in
/-- While the timer thread holds the mutex, the calls in the queue are asleep. -/
theorem Nodes.queue_asleep (h : Nodes s) (hm : Mutex s) (hl : s.loop.holds = true)
    {e : Entry Timespec α} (he : e ∈ s.queue) : s.call e.val = .asleep e.seq := by
  have hi := h.placed e he
  have hh := hm.timer_sole hl e.val
  cases hc : s.call e.val with
  | asleep n =>
    rw [hc] at hi
    rw [Option.some.inj hi]
  | signal n | unlock n =>
    rw [hc] at hh
    cases hh
  | out | start | setTimeout | addLock | add | awake =>
    rw [hc] at hi
    cases hi

/-- What a pass puts on `awake_list`, and what it leaves. -/
theorem Refines.passed {timer timer' : FiberTimer α} {queue : List (Entry Timespec α)}
    (h : Refines timer queue) {m : α} {cur : Timespec} (hm : timer.minTime = some m)
    (hcur : timespecComp cur (timer.tp m) = false) (hr : expire O S cur timer = some timer') :
    timer'.links.Ring .awakeList (linksOf (upTo cur queue)) ∧ Refines timer' (after cur queue) := by
  obtain ⟨x, hx, rfl⟩ : ∃ x, queue.head? = some x ∧ x.val = m := by
    rw [h.minTime] at hm
    simpa using hm
  have hle : x.key ≤ cur := by
    rw [h.tp x (List.mem_of_mem_head? hx), timespecComp_eq] at hcur
    simpa using hcur
  obtain ⟨r, hr', hring, href⟩ := expire_spec O S h hx hle
  obtain rfl := Option.some.inj (hr.symm.trans hr')
  exact ⟨hring, href⟩

theorem Nodes.pass (h : Nodes s) (hmtx : Mutex s) {cur : Timespec} {m : α} {timer : FiberTimer α}
    (hl : s.loop = .readClock) (hm : s.timer.minTime = some m)
    (hcur : timespecComp cur (s.timer.tp m) = false) (hr : expire O S cur s.timer = some timer)
    (ht : s'.timer = timer) (hl' : s'.loop = .unlock (upTo cur s.queue))
    (hq : s'.queue = after cur s.queue) (hc : s'.call = s.call) (hs : s'.sleeps = s.sleeps) :
    Nodes s' := by
  have href := (h.refines.passed hm hcur hr).2
  have hperm : (after cur s.queue ++ upTo cur s.queue).Perm s.queue :=
    List.perm_append_comm.trans (upTo_after_perm cur s.queue)
  have hmem : ∀ e, e ∈ after cur s.queue ++ upTo cur s.queue → e ∈ s.queue := by
    intro e he
    exact hperm.subset he
  have hempty : s.loop.awakeList = [] := by rw [hl]; rfl
  have hawake : s'.loop.awakeList = upTo cur s.queue := by rw [hl']; rfl
  refine ⟨?_, ?_, ?_, ?_, ?_, ?_⟩
  · rw [ht, hq]
    exact href
  · intro e he
    rw [hq, hawake] at he
    rw [hs]
    exact h.seq e (List.mem_append_left _ (hmem e he))
  · rw [hq, hawake]
    have hd := h.distinct
    rw [hempty, List.append_nil] at hd
    exact (hperm.map Entry.seq).nodup_iff.2 hd
  · rw [ht, expire_tp hr, hc]
    exact h.tp
  · intro e he
    rw [hq] at he
    rw [hc]
    exact h.placed e (mem_after.1 he).1
  · intro e he
    rw [hawake] at he
    rw [hc]
    exact h.queue_asleep hmtx (by rw [hl]; rfl) (mem_upTo.1 he).1

theorem Nodes.enqueue (h : Nodes s) {awake : List (Entry Timespec α)} {e : Entry Timespec α}
    (hl : s.loop = .enqueue (e :: awake)) (ht : s'.timer = s.timer) (hq : s'.queue = s.queue)
    (hc : s'.call = Function.update s.call e.val (.awake e.seq)) (hl' : s'.loop = .enqueue awake)
    (hs : s'.sleeps = s.sleeps) : Nodes s' := by
  have hawake : s.loop.awakeList = e :: s'.loop.awakeList := by
    rw [hl, hl']
    rfl
  have he : e ∈ s.loop.awakeList := hawake ▸ List.mem_cons_self
  have hsub : s'.loop.awakeList.Sublist s.loop.awakeList := hawake ▸ List.sublist_cons_self e _
  have hd := h.distinct
  rw [List.map_append] at hd
  have he' : s.call e.val = .asleep e.seq := h.asleep e he
  refine ⟨?_, ?_, ?_, ?_, ?_, ?_⟩
  · rw [ht, hq]
    exact h.refines
  · intro x hx
    rw [hq] at hx
    rw [hs]
    exact h.seq x (((List.Sublist.refl _).append hsub).subset hx)
  · rw [hq]
    exact h.distinct.sublist (((List.Sublist.refl _).append hsub).map _)
  · rw [hc, ht]
    exact (Function.forall_update_iff s.call fun b q => ∀ c0 d, q.deadline = some (c0, d) →
      s.timer.tp b = fiberSleep c0 d).2 ⟨nofun, fun b _ => h.tp b⟩
  · intro x hx
    rw [hq] at hx
    have hi := h.placed x hx
    rw [hc, Function.update_of_ne, hi]
    intro hv
    -- the two entries would have the same number
    rw [hv, he'] at hi
    exact (List.disjoint_of_nodup_append hd) (List.mem_map_of_mem hx)
      (Option.some.inj hi ▸ List.mem_map_of_mem he)
  · intro x hx
    have ha := h.asleep x (hsub.subset hx)
    rw [hc, Function.update_of_ne, ha]
    intro hv
    rw [hv, he'] at ha
    have hnd := hd.of_append_right
    rw [hawake, List.map_cons, List.nodup_cons] at hnd
    exact hnd.1 (Call.asleep.inj ha ▸ List.mem_map_of_mem hx)

theorem Nodes.first (h : Nodes s) {c0 d : Timespec} (ha : s.call a = .start d)
    (ht : s'.timer = setTp a (fiberSleep c0 d) s.timer) (hq : s'.queue = s.queue)
    (hc : s'.call = Function.update s.call a (.setTimeout c0 d)) (hl : s'.loop = s.loop)
    (hs : s'.sleeps = s.sleeps) : Nodes s' := by
  have hnot := h.notMem (a := a) (by rw [ha]; rfl)
  have hfresh := h.fresh (a := a) (by rw [ha]; rfl)
  refine ⟨?_, ?_, ?_, ?_, ?_, ?_⟩
  · rw [ht, hq]
    exact h.refines.setTp hnot _
  · rw [hq, hl, hs]
    exact h.seq
  · rw [hq, hl]
    exact h.distinct
  · intro b c1 d1 hb
    rw [hc] at hb
    rw [ht]
    by_cases hba : b = a
    · subst hba
      rw [Function.update_self] at hb
      cases hb
      simp [setTp]
    · rw [Function.update_of_ne hba] at hb
      simpa [setTp, hba] using h.tp b c1 d1 hb
  · intro e he
    rw [hq] at he
    rw [hc, Function.update_of_ne (hfresh e he)]
    exact h.placed e he
  · intro e he
    rw [hl] at he
    have hs := h.asleep e he
    rw [hc, Function.update_of_ne, hs]
    intro hv
    rw [hv, ha] at hs
    cases hs

/-- **Every step keeps `Nodes`.** -/
theorem Nodes.step (hm : Mutex s) (h : Nodes s) (hs : Run O S s s') : Nodes s' := by
  cases hs with
  | sleep a d hc => exact h.call hc rfl nofun rfl nofun rfl rfl rfl rfl
  | first c0 hc hn => exact h.first hc rfl rfl rfl rfl rfl
  | late cur hc hn hcur => exact h.call hc rfl nofun rfl nofun rfl rfl rfl rfl
  | early cur hc hn hcur => exact h.call hc rfl nofun rfl (fun _ _ => id) rfl rfl rfl rfl
  | addLock hc hmtx => exact h.call hc rfl nofun rfl (fun _ _ => id) rfl rfl rfl rfl
  | @add a c0 d r hc hr =>
    refine h.add hc hr rfl rfl ?_ ?_ rfl rfl rfl
    · split <;> rfl
    · split <;> rfl
  | signal hc =>
    refine h.call hc rfl nofun rfl nofun rfl rfl ?_ rfl
    show s.loop.notified.awakeList = s.loop.awakeList
    cases s.loop <;> rfl
  | addUnlock hc => exact h.call hc rfl nofun rfl nofun rfl rfl rfl rfl
  | wake hc => exact h.call hc rfl nofun rfl nofun rfl rfl rfl rfl
  | lock hl hmtx => exact h.loop (by rw [hl]; rfl) rfl rfl rfl rfl
  | testEmpty hl ht =>
    refine h.loop ?_ rfl rfl rfl rfl
    rcases hl with hl | hl <;> rw [hl] <;> rfl
  | testFull hl ht => exact h.loop (by rw [hl]; rfl) rfl rfl rfl rfl
  | retestFull hl ht => exact h.loop (by rw [hl]; rfl) rfl rfl rfl rfl
  | waitTimed cur hl hn hmin hcur => exact h.loop (by rw [hl]; rfl) rfl rfl rfl rfl
  | pass cur hl hn hmin hcur hr => exact h.pass hm hl hmin hcur hr rfl rfl rfl rfl rfl
  | spurious hl => exact h.loop (by rw [hl]; rfl) rfl rfl rfl rfl
  | relock hl hmtx =>
    refine h.loop ?_ rfl rfl rfl rfl
    rw [hl]
    show Loop.awakeList (if _ then _ else _) = _
    split <;> rfl
  | unlock hl => exact h.loop (by rw [hl]; rfl) rfl rfl rfl rfl
  | enqueue hl => exact h.enqueue hl rfl rfl rfl rfl rfl
  | again hl => exact h.loop (by rw [hl]; rfl) rfl rfl rfl rfl
  | relink links hkeep =>
    have hrefines := h.refines.relink fun p hp => hkeep p (hp.imp_right .inl)
    exact { h with refines := hrefines }

theorem RunReached.inv (h : RunReached O S s) : Mutex s ∧ Nodes s := by
  refine h.invariant (J := fun s => Mutex s ∧ Nodes s) ?_ ?_
  · rintro s ⟨timer, rfl⟩
    refine ⟨⟨by simp [Loop.holds], fun a => by simp [Call.holds]⟩, ⟨?_, ?_, ?_, ?_, ?_, ?_⟩⟩
    · exact ⟨.nil, rfl, O.init_ring .timeList timer.links, by simp, rfl, rfl⟩
    · exact fun e he => absurd he List.not_mem_nil
    · exact List.nodup_nil
    · exact fun a c0 d h => by cases h
    · exact fun e he => absurd he List.not_mem_nil
    · exact fun e he => absurd he List.not_mem_nil
  · intro s s' ⟨hm, hn⟩ hs
    exact ⟨hm.step hn hs, hn.step hm hs⟩

end Timer
