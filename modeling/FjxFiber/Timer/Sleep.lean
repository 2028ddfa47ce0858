import FjxFiber.Timer.ThreadInv

/-!
# No sleep ends early

The deadline that `fiber_sleep` computes is normalized and exact (`fiberSleep_normal`,
`fiberSleep_ns`), and normalized times are ordered as the nanoseconds they stand for. `History` is
what every run keeps of the calls and passes so far.
-/

set_option autoImplicit false

namespace Timer

open Lib Lib.StableQueue

/-! ## Deadlines -/

theorem gigaConstant_pos : 0 < gigaConstant := by decide

/-- A duration that may be slept for. -/
def Timespec.Nonneg (d : Timespec) : Prop := 0 ≤ d.tvSec ∧ 0 ≤ d.tvNsec

variable {c0 d p q : Timespec}

theorem fiberSleep_normal (hc : c0.Normal) (hd : d.Nonneg) : (fiberSleep c0 d).Normal := by
  have hn : 0 ≤ c0.tvNsec + d.tvNsec := Int.add_nonneg hc.1 hd.2
  refine ⟨?_, ?_⟩
  · exact Int.tmod_nonneg _ hn
  · exact Int.tmod_lt_of_pos _ gigaConstant_pos

/-- The carry loses nothing. -/
theorem fiberSleep_ns (c0 d : Timespec) : (fiberSleep c0 d).ns = c0.ns + d.ns := by
  have hdiv := Int.mul_tdiv_add_tmod (c0.tvNsec + d.tvNsec) gigaConstant
  unfold fiberSleep Timespec.ns gigaConstant at *
  simp only
  omega

/-- Normalized times are ordered as numbers. -/
theorem Timespec.Normal.le_iff (hp : p.Normal) (hq : q.Normal) : p ≤ q ↔ p.ns ≤ q.ns := by
  have hlt : q < p ↔ q.tvSec < p.tvSec ∨ q.tvSec = p.tvSec ∧ q.tvNsec < p.tvNsec :=
    Prod.Lex.toLex_lt_toLex
  rw [← not_lt, hlt]
  obtain ⟨hp0, hp1⟩ := hp
  obtain ⟨hq0, hq1⟩ := hq
  unfold Timespec.ns gigaConstant at *
  omega

/-- A reading of the clock is not before a deadline exactly when it is not before the time that the
call is to sleep until. -/
theorem fiberSleep_le (hc : c0.Normal) (hd : d.Nonneg) {cur : Timespec} (hcur : cur.Normal) :
    fiberSleep c0 d ≤ cur ↔ c0.ns + d.ns ≤ cur.ns := by
  rw [(fiberSleep_normal hc hd).le_iff hcur, fiberSleep_ns]

/-! ## What has happened so far -/

variable {α : Type*} {s s' : RunState α} {a : α} {r : Call}

namespace RunState

/-- What has been put on `awake_list` so far. -/
def awoken (s : RunState α) : List (Entry Timespec α) := s.passes.flatMap Pass.awake

/-- What has been inserted so far. -/
def entries (s : RunState α) : List (Entry Timespec α) := s.sleeps.mapIdx fun n x => x.entry n

end RunState

structure History (s : RunState α) : Prop where
  /-- A node is in the store from its insertion until a pass puts it on `awake_list`. -/
  once : (s.awoken ++ s.queue).Perm s.entries
  passes : ∀ x ∈ s.passes, x.cur.Normal ∧ Stable x.awake ∧ ∀ e ∈ x.awake, e.key ≤ x.cur
  late : ∀ x ∈ s.late, x.c0.Normal ∧ x.cur.Normal ∧ fiberSleep x.c0 x.d ≤ x.cur
  /-- First readings are normalized. -/
  reading : ∀ a c0 d, (s.call a).deadline = some (c0, d) → c0.Normal
  normal : ∀ x ∈ s.sleeps, x.c0.Normal
  numbered : ∀ a n, (s.call a).number = some n → ∃ c0 d, s.sleeps[n]? = some ⟨a, c0, d⟩
  /-- What has been handed on was on `awake_list` before what is there now. -/
  order : s.woken ++ s.loop.awakeList = s.awoken
  awake : ∀ a n, s.call a = .awake n → ∃ e ∈ s.woken, e.seq = n ∧ e.val = a

/-- A step that ends no sleep and begins none. -/
theorem History.keep (h : History s) (hq : s'.queue = s.queue) (hp : s'.passes = s.passes)
    (hs : s'.sleeps = s.sleeps) (hlate : s'.late = s.late)
    (hl : s'.loop.awakeList = s.loop.awakeList)
    (hr : ∀ a c0 d, (s'.call a).deadline = some (c0, d) → c0.Normal)
    (hn : ∀ a n, (s'.call a).number = some n → (s.call a).number = some n)
    (ha : ∀ a n, s'.call a = .awake n → s.call a = .awake n) (hwk : s'.woken = s.woken) :
    History s' := by
  have hw : s'.awoken = s.awoken := by
    unfold RunState.awoken
    rw [hp]
  have he : s'.entries = s.entries := by
    unfold RunState.entries
    rw [hs]
  refine ⟨?_, ?_, ?_, hr, ?_, ?_, ?_, ?_⟩
  · rw [hw, hq, he]
    exact h.once
  · rw [hp]
    exact h.passes
  · rw [hlate]
    exact h.late
  · rw [hs]
    exact h.normal
  · intro a n hnum
    rw [hs]
    exact h.numbered a n (hn a n hnum)
  · rw [hwk, hl, hw]
    exact h.order
  · intro a n hn
    rw [hwk]
    exact h.awake a n (ha a n hn)

theorem entries_add (hs : s'.sleeps = s.sleeps ++ [⟨a, c0, d⟩]) :
    s'.entries = s.entries ++ [Sleep.entry ⟨a, c0, d⟩ s.sleeps.length] := by
  unfold RunState.entries
  rw [hs, List.mapIdx_concat]

variable [DecidableEq α] {O : ListOps (Ptr α)} {S : Splay α}

theorem History.add (h : History s) (ha : s.call a = .add c0 d)
    (hc : s'.call = Function.update s.call a r) (hd : r.deadline = none)
    (hnum : r.number = some s.sleeps.length) (hr : ∀ n, r ≠ .awake n)
    (hq : s'.queue = insertStable (Sleep.entry ⟨a, c0, d⟩ s.sleeps.length) s.queue)
    (hp : s'.passes = s.passes) (hl : s'.loop = s.loop) (hlate : s'.late = s.late)
    (hs : s'.sleeps = s.sleeps ++ [⟨a, c0, d⟩]) (hwk : s'.woken = s.woken) : History s' := by
  have hw : s'.awoken = s.awoken := by
    unfold RunState.awoken
    rw [hp]
  refine ⟨?_, ?_, ?_, ?_, ?_, ?_, ?_, ?_⟩
  · rw [hw, hq, entries_add hs]
    have hperm : (s.awoken ++ insertStable (Sleep.entry ⟨a, c0, d⟩ s.sleeps.length) s.queue).Perm
        (Sleep.entry ⟨a, c0, d⟩ s.sleeps.length :: (s.awoken ++ s.queue)) :=
      ((insertStable_perm _ s.queue).append_left s.awoken).trans List.perm_middle
    exact hperm.trans ((h.once.cons _).trans (List.perm_append_singleton _ _).symm)
  · rw [hp]
    exact h.passes
  · rw [hlate]
    exact h.late
  · rw [hc]
    refine (Function.forall_update_iff s.call fun _ q =>
      ∀ c1 d1, q.deadline = some (c1, d1) → c1.Normal).2 ⟨?_, fun b _ => h.reading b⟩
    intro c1 d1 hb
    rw [hd] at hb
    cases hb
  · intro x hx
    rw [hs] at hx
    rcases List.mem_append.1 hx with hx | hx
    · exact h.normal x hx
    · rw [List.mem_singleton.1 hx]
      exact h.reading a c0 d (by rw [ha]; rfl)
  · rw [hc, hs]
    refine (Function.forall_update_iff s.call fun b q => ∀ n, q.number = some n →
      ∃ c0' d', (s.sleeps ++ [⟨a, c0, d⟩])[n]? = some ⟨b, c0', d'⟩).2 ⟨?_, fun b _ => ?_⟩
    · intro n hb
      rw [hnum] at hb
      cases hb
      exact ⟨c0, d, by simp⟩
    · intro n hb
      obtain ⟨c1, d1, hget⟩ := h.numbered b n hb
      have hlt := (List.getElem?_eq_some_iff.1 hget).1
      exact ⟨c1, d1, (List.getElem?_append_left hlt).trans hget⟩
  · rw [hwk, hl, hw]
    exact h.order
  · rw [hc, hwk]
    exact (Function.forall_update_iff s.call fun b q => ∀ n, q = .awake n →
      ∃ e ∈ s.woken, e.seq = n ∧ e.val = b).2
      ⟨fun n hb => absurd hb (hr n), fun b _ => h.awake b⟩

omit [DecidableEq α] in
theorem History.pass (h : History s) {cur : Timespec} (hstable : Stable s.queue)
    (hcur : cur.Normal) (hp : s'.passes = s.passes ++ [⟨cur, upTo cur s.queue⟩])
    (hq : s'.queue = after cur s.queue) (hl0 : s.loop = .readClock)
    (hl : s'.loop = .unlock (upTo cur s.queue)) (hc : s'.call = s.call)
    (hs : s'.sleeps = s.sleeps) (hlate : s'.late = s.late) (hwk : s'.woken = s.woken) :
    History s' := by
  have hw : s'.awoken = s.awoken ++ upTo cur s.queue := by
    unfold RunState.awoken
    rw [hp, List.flatMap_append]
    simp
  have he : s'.entries = s.entries := by
    unfold RunState.entries
    rw [hs]
  refine ⟨?_, ?_, ?_, ?_, ?_, ?_, ?_, ?_⟩
  · rw [hw, hq, he, List.append_assoc]
    exact ((upTo_after_perm cur s.queue).append_left s.awoken).trans h.once
  · intro x hx
    rw [hp] at hx
    rcases List.mem_append.1 hx with hx | hx
    · exact h.passes x hx
    · rw [List.mem_singleton.1 hx]
      exact ⟨hcur, hstable.upTo cur, fun e he => (mem_upTo.1 he).2⟩
  · rw [hlate]
    exact h.late
  · rw [hc]
    exact h.reading
  · rw [hs]
    exact h.normal
  · rw [hc, hs]
    exact h.numbered
  · have hord := h.order
    rw [hl0, show (Loop.readClock : Loop α).awakeList = [] from rfl, List.append_nil] at hord
    rw [hwk, hl, hw, hord]
    rfl
  · rw [hc, hwk]
    exact h.awake

theorem History.enqueue (hn : Nodes s) (h : History s) {awake : List (Entry Timespec α)}
    {e : Entry Timespec α} (hl : s.loop = .enqueue (e :: awake))
    (hc : s'.call = Function.update s.call e.val (.awake e.seq)) (hl' : s'.loop = .enqueue awake)
    (hq : s'.queue = s.queue) (hp : s'.passes = s.passes) (hs : s'.sleeps = s.sleeps)
    (hlate : s'.late = s.late) (hwk : s'.woken = s.woken ++ [e]) : History s' := by
  have hw : s'.awoken = s.awoken := by
    unfold RunState.awoken
    rw [hp]
  have hent : s'.entries = s.entries := by
    unfold RunState.entries
    rw [hs]
  have he' : s.call e.val = .asleep e.seq := hn.asleep e (by rw [hl]; exact List.mem_cons_self)
  refine ⟨?_, ?_, ?_, ?_, ?_, ?_, ?_, ?_⟩
  · rw [hw, hq, hent]
    exact h.once
  · rw [hp]
    exact h.passes
  · rw [hlate]
    exact h.late
  · rw [hc]
    exact (Function.forall_update_iff s.call fun _ q =>
      ∀ c1 d1, q.deadline = some (c1, d1) → c1.Normal).2 ⟨nofun, fun b _ => h.reading b⟩
  · rw [hs]
    exact h.normal
  · rw [hc, hs]
    refine (Function.forall_update_iff s.call fun b q => ∀ n, q.number = some n →
      ∃ c0 d, s.sleeps[n]? = some ⟨b, c0, d⟩).2 ⟨?_, fun b _ => h.numbered b⟩
    intro n hb
    exact h.numbered e.val n (by rw [he']; exact hb)
  · have hord := h.order
    rw [hl] at hord
    rw [hwk, hl', hw, ← hord, List.append_assoc]
    rfl
  · rw [hc, hwk]
    refine (Function.forall_update_iff s.call fun b q => ∀ n, q = .awake n →
      ∃ x ∈ s.woken ++ [e], x.seq = n ∧ x.val = b).2 ⟨?_, fun b _ n hb => ?_⟩
    · intro n hb
      exact ⟨e, List.mem_append_right _ (List.mem_singleton.2 rfl), Call.awake.inj hb, rfl⟩
    · obtain ⟨x, hx, hxn⟩ := h.awake b n hb
      exact ⟨x, List.mem_append_left _ hx, hxn⟩

/-- A call goes on that neither inserts nor is woken. -/
theorem History.call (h : History s) {p q : Call} (hq : s.call a = q)
    (hc : s'.call = Function.update s.call a p)
    (hd : ∀ c0 d, p.deadline = some (c0, d) → q.deadline = some (c0, d) ∨ c0.Normal)
    (hn : ∀ n, p.number = some n → q.number = some n) (ha : ∀ n, p ≠ .awake n)
    (hqu : s'.queue = s.queue) (hp : s'.passes = s.passes) (hs : s'.sleeps = s.sleeps)
    (hlate : s'.late = s.late) (hl : s'.loop.awakeList = s.loop.awakeList)
    (hwk : s'.woken = s.woken) : History s' := by
  subst hq
  refine h.keep hqu hp hs hlate hl ?_ ?_ ?_ hwk
  · rw [hc]
    refine (Function.forall_update_iff s.call fun _ q =>
      ∀ c0 d, q.deadline = some (c0, d) → c0.Normal).2 ⟨?_, fun b _ => h.reading b⟩
    intro c0 d hb
    exact (hd c0 d hb).elim (h.reading a c0 d) id
  · rw [hc]
    exact (Function.forall_update_iff s.call fun b q => ∀ n, q.number = some n →
      (s.call b).number = some n).2 ⟨hn, fun _ _ _ => id⟩
  · rw [hc]
    exact (Function.forall_update_iff s.call fun b q => ∀ n, q = .awake n →
      s.call b = .awake n).2 ⟨fun n hb => absurd hb (ha n), fun _ _ _ => id⟩

omit [DecidableEq α] in
/-- The timer thread goes on, and neither begins nor ends a pass. -/
theorem History.loop (h : History s) (hl : s'.loop.awakeList = s.loop.awakeList)
    (hc : s'.call = s.call) (hq : s'.queue = s.queue) (hp : s'.passes = s.passes)
    (hs : s'.sleeps = s.sleeps) (hlate : s'.late = s.late) (hwk : s'.woken = s.woken) :
    History s' := by
  refine h.keep hq hp hs hlate hl ?_ ?_ ?_ hwk
  · rw [hc]
    exact h.reading
  · rw [hc]
    exact fun _ _ => id
  · rw [hc]
    exact fun _ _ => id

/-- **Every step keeps `History`.** -/
theorem History.step (hn : Nodes s) (h : History s) (hs : Run O S s s') : History s' := by
  cases hs with
  | sleep a d hc => exact h.call hc rfl nofun nofun nofun rfl rfl rfl rfl rfl rfl
  | first c0 hc hc0 =>
    refine h.call hc rfl ?_ nofun nofun rfl rfl rfl rfl rfl rfl
    intro c1 d1 he
    cases he
    exact .inr hc0
  | @late a c0 d cur hc hcur hle =>
    have hk : History (s.goto a .out) :=
      h.call (p := .out) hc rfl nofun nofun nofun rfl rfl rfl rfl rfl rfl
    refine ⟨hk.once, hk.passes, ?_, hk.reading, hk.normal, hk.numbered, hk.order, hk.awake⟩
    intro x hx
    rcases List.mem_append.1 hx with hx | hx
    · exact h.late x hx
    · rw [List.mem_singleton.1 hx]
      refine ⟨h.reading a c0 d (by rw [hc]; rfl), hcur, ?_⟩
      rw [hn.tp a c0 d (by rw [hc]; rfl), timespecComp_eq] at hle
      simpa using hle
  | early cur hc hcur hle =>
    exact h.call hc rfl (fun _ _ hd => .inl hd) nofun nofun rfl rfl rfl rfl rfl rfl
  | addLock hc hmtx =>
    exact h.call hc rfl (fun _ _ hd => .inl hd) nofun nofun rfl rfl rfl rfl rfl rfl
  | @add a c0 d r hc hr =>
    refine h.add hc rfl ?_ ?_ ?_ rfl rfl rfl rfl rfl rfl
    · split <;> rfl
    · split <;> rfl
    · split <;> exact nofun
  | signal hc =>
    refine h.call hc rfl nofun (fun _ => id) nofun rfl rfl rfl rfl ?_ rfl
    show s.loop.notified.awakeList = s.loop.awakeList
    cases s.loop <;> rfl
  | addUnlock hc => exact h.call hc rfl nofun (fun _ => id) nofun rfl rfl rfl rfl rfl rfl
  | wake hc => exact h.call hc rfl nofun nofun nofun rfl rfl rfl rfl rfl rfl
  | testEmpty hl ht =>
    refine h.loop ?_ rfl rfl rfl rfl rfl rfl
    rcases hl with hl | hl <;> rw [hl] <;> rfl
  | relock hl hmtx =>
    refine h.loop ?_ rfl rfl rfl rfl rfl rfl
    rw [hl]
    show Loop.awakeList (if _ then _ else _) = _
    split <;> rfl
  | pass cur hl hcur hmin hle hr =>
    exact h.pass hn.refines.stable hcur rfl rfl hl rfl rfl rfl rfl rfl
  | enqueue hl => exact h.enqueue hn hl rfl rfl rfl rfl rfl rfl rfl
  | lock hl | testFull hl | retestFull hl | waitTimed _ hl | spurious hl | unlock hl | again hl =>
    exact h.loop (by rw [hl]; rfl) rfl rfl rfl rfl rfl rfl
  | relink links hkeep => exact h.loop rfl rfl rfl rfl rfl rfl rfl

theorem RunReached.history (h : RunReached O S s) : History s := by
  refine h.invariant_from (fun _ => RunReached.inv) ?_ fun _ _ hi hh hs => hh.step hi.2 hs
  rintro s ⟨timer, rfl⟩
  refine ⟨.refl _, nofun, nofun, ?_, nofun, ?_, rfl, ?_⟩
  · intro a c0 d hd
    cases hd
  · intro a n hn
    cases hn
  · intro a n ha
    cases ha

/-! ## `awake_list` -/

/-- After a pass, and before the mutex is released, what the pass took is on `awake_list`, in
order. -/
def OnAwakeList (s : RunState α) : Prop :=
  ∀ awake, s.loop = .unlock awake → awake ≠ [] →
    s.timer.links.Ring .awakeList (linksOf awake) ∧ ∃ cur, s.passes.getLast? = some ⟨cur, awake⟩

omit [DecidableEq α] in
theorem onAwakeList_of (hne : ∀ awake, s.loop = .unlock awake → awake = []) : OnAwakeList s := by
  intro awake hl hawake
  exact absurd (hne awake hl) hawake

theorem OnAwakeList.step (hm : Mutex s) (hn : Nodes s) (h : OnAwakeList s) (hs : Run O S s s') :
    OnAwakeList s' := by
  cases hs with
  | sleep | first | late | early | addLock | addUnlock | wake => exact h
  | add hc hr =>
    -- the timer thread does not hold the mutex
    apply onAwakeList_of
    intro awake hl
    have hf := (hm.sole (by rw [hc]; rfl)).1
    rw [show s.loop = .unlock awake from hl] at hf
    cases hf
  | signal hc =>
    apply onAwakeList_of
    intro awake hl
    have hf := (hm.sole (by rw [hc]; rfl)).1
    have hl : s.loop.notified = .unlock awake := hl
    rw [← Loop.notified_holds, hl] at hf
    cases hf
  | relock hl hmtx =>
    apply onAwakeList_of
    intro awake hl
    have hl : (if _ then Loop.readClock else Loop.retest) = Loop.unlock awake := hl
    split at hl <;> cases hl
  | retestFull hl ht =>
    apply onAwakeList_of
    intro awake hl
    cases hl
    rfl
  | pass cur hl hcur hmin hle hr =>
    intro awake hl hawake
    cases hl
    refine ⟨(hn.refines.passed hmin hle hr).1, cur, ?_⟩
    exact List.getLast?_concat
  | relink links hkeep =>
    intro awake hl hawake
    obtain ⟨hring, hlast⟩ := h awake hl hawake
    refine ⟨hring.congr ?_, hlast⟩
    intro p hp
    exact hkeep p (.inr (.inr ⟨awake, hl, hp⟩))
  | lock | testEmpty | testFull | waitTimed | spurious | unlock | enqueue | again =>
    exact onAwakeList_of nofun

theorem RunReached.onAwakeList (h : RunReached O S s) : OnAwakeList s := by
  refine h.invariant_from (fun _ => RunReached.inv) ?_ fun _ _ hi ha hs => ha.step hi.1 hi.2 hs
  rintro s ⟨timer, rfl⟩ awake hl
  cases hl

/-! ## The result -/

omit [DecidableEq α] in
theorem mem_entries {e : Entry Timespec α} :
    e ∈ s.entries ↔ ∃ (n : Nat) (y : Sleep α), s.sleeps[n]? = some y ∧ e = y.entry n := by
  unfold RunState.entries
  rw [List.mem_mapIdx]
  refine ⟨?_, ?_⟩
  · rintro ⟨n, hn, rfl⟩
    exact ⟨n, s.sleeps[n], List.getElem?_eq_getElem hn, rfl⟩
  · rintro ⟨n, y, hy, rfl⟩
    obtain ⟨hn, rfl⟩ := List.getElem?_eq_some_iff.1 hy
    exact ⟨n, hn, rfl⟩

omit [DecidableEq α] in
/-- The insertions are numbered. -/
theorem entries_seq (s : RunState α) :
    s.entries.map Entry.seq = List.range s.sleeps.length := by
  refine List.ext_getElem ?_ ?_
  · simp [RunState.entries]
  · intro n h1 h2
    simp [RunState.entries, Sleep.entry]

omit [DecidableEq α] in
/-- Every insertion is in one place, once. -/
theorem History.count (h : History s) {n : Nat} (hn : n < s.sleeps.length) :
    ((s.awoken ++ s.queue).map Entry.seq).count n = 1 := by
  rw [(h.once.map Entry.seq).count_eq, entries_seq]
  exact List.count_eq_one_of_mem List.nodup_range (List.mem_range.2 hn)

omit [DecidableEq α] in
/-- What a pass has put on `awake_list` was inserted by a call, whose time had come. -/
theorem History.due (h : History s) {x : Pass α} (hx : x ∈ s.passes) {e : Entry Timespec α}
    (he : e ∈ x.awake) : ∃ y, s.sleeps[e.seq]? = some y ∧ e.val = y.node ∧
      e.key = fiberSleep y.c0 y.d ∧ (y.d.Nonneg → y.c0.ns + y.d.ns ≤ x.cur.ns) := by
  obtain ⟨hcur, -, hkey⟩ := h.passes x hx
  have hm : e ∈ s.entries := by
    refine h.once.subset (List.mem_append_left _ ?_)
    exact List.mem_flatMap.2 ⟨x, hx, he⟩
  obtain ⟨n, y, hy, rfl⟩ := mem_entries.1 hm
  refine ⟨y, hy, rfl, rfl, ?_⟩
  intro hd
  have hc0 := h.normal y (List.mem_of_getElem? hy)
  exact (fiberSleep_le hc0 hd hcur).1 (hkey _ he)

/-- The ways in which a call of `fiber_sleep` returns. -/
theorem Run.returns (hs : Run O S s s') (h : s.call a ≠ .out) (h' : s'.call a = .out) :
    (∃ c0 d cur, s.call a = .setTimeout c0 d ∧ s'.late = s.late ++ [⟨c0, d, cur⟩]) ∨
      ∃ n, s.call a = .awake n := by
  have hself : ∀ {b : α} {p : Call}, Function.update s.call b p a = .out → p ≠ .out → False := by
    intro b p hb hp
    by_cases he : a = b
    · rw [he, Function.update_self] at hb
      exact hp hb
    · rw [Function.update_of_ne he] at hb
      exact h hb
  cases hs with
  | sleep b d hc => exact (hself h' nofun).elim
  | first c0 hc hc0 => exact (hself h' nofun).elim
  | @late b c0 d cur hc hcur hle =>
    by_cases he : a = b
    · subst he
      exact .inl ⟨c0, d, cur, hc, rfl⟩
    · exact absurd ((Function.update_of_ne he _ _).symm.trans h') h
  | early cur hc hcur hle => exact (hself h' nofun).elim
  | addLock hc hmtx => exact (hself h' nofun).elim
  | @add b c0 d r hc hr =>
    refine (hself (b := b) h' ?_).elim
    split <;> exact nofun
  | signal hc => exact (hself h' nofun).elim
  | addUnlock hc => exact (hself h' nofun).elim
  | @wake b n hc =>
    by_cases he : a = b
    · subst he
      exact .inr ⟨n, hc⟩
    · exact absurd ((Function.update_of_ne he _ _).symm.trans h') h
  | enqueue hl => exact (hself h' nofun).elim
  | lock | testEmpty | testFull | retestFull | waitTimed | pass | spurious | relock | unlock
  | again | relink => exact absurd h' h

/-- A call whose sleep is over was put on `awake_list` once, and handed on, and is not in the
store. -/
theorem RunReached.over (h : RunReached O S s) {n : Nat} (ha : s.call a = .awake n) :
    (∃ c0 d, s.sleeps[n]? = some ⟨a, c0, d⟩) ∧ n ∈ s.woken.map Entry.seq ∧
      (s.awoken.map Entry.seq).count n = 1 ∧ n ∉ s.queue.map Entry.seq := by
  have hh := RunReached.history h
  obtain ⟨c0, d, hget⟩ := hh.numbered a n (by rw [ha]; rfl)
  have hlt := (List.getElem?_eq_some_iff.1 hget).1
  have hcount := hh.count hlt
  obtain ⟨e, he, hen, -⟩ := hh.awake a n ha
  have hold : e ∈ s.awoken := hh.order ▸ List.mem_append_left _ he
  have hmem : n ∈ s.awoken.map Entry.seq := hen ▸ List.mem_map_of_mem hold
  have hpos := List.count_pos_iff.2 hmem
  rw [List.map_append, List.count_append] at hcount
  refine ⟨⟨c0, d, hget⟩, hen ▸ List.mem_map_of_mem he, by omega, ?_⟩
  intro hq
  have hpos' := List.count_pos_iff.2 hq
  omega

/-- **No sleep ends early.** In every reachable state

* the deadline in the node of a call that is to insert it is normalized and is its first reading
  plus the duration;
* a call that returned without suspending had read the clock at its deadline or after;
* what a pass put on `awake_list` is in order of deadline, equal deadlines in order of insertion,
  and all of it was due at the reading of the pass;
* every insertion is in the store or was put on `awake_list`, once;
* what has been handed on, in order, and what is to be handed on yet, is what the passes put on
  `awake_list`, in order;
* a call returns only without suspending or once a pass has put it on `awake_list`, from which it
  has been handed on;
* after a pass, `awake_list` is what it put there. -/
theorem sleeps_due (h : RunReached O S s) :
    (∀ a c0 d, (s.call a).deadline = some (c0, d) → s.timer.tp a = fiberSleep c0 d ∧
      (d.Nonneg → (s.timer.tp a).Normal ∧ (s.timer.tp a).ns = c0.ns + d.ns)) ∧
    (∀ x ∈ s.late, x.d.Nonneg → x.c0.ns + x.d.ns ≤ x.cur.ns) ∧
    (∀ x ∈ s.passes, x.awake.Pairwise Entry.Before ∧ ∀ e ∈ x.awake, ∃ y,
      s.sleeps[e.seq]? = some y ∧ e.val = y.node ∧ e.key = fiberSleep y.c0 y.d ∧
      (y.d.Nonneg → y.c0.ns + y.d.ns ≤ x.cur.ns)) ∧
    (∀ n < s.sleeps.length, ((s.awoken ++ s.queue).map Entry.seq).count n = 1) ∧
    (s.woken ++ s.loop.awakeList = s.awoken) ∧
    (∀ a s', Run O S s s' → s.call a ≠ .out → s'.call a = .out →
      (∃ c0 d cur, s.call a = .setTimeout c0 d ∧ s'.late = s.late ++ [⟨c0, d, cur⟩]) ∨
        ∃ n c0 d, s.call a = .awake n ∧ s.sleeps[n]? = some ⟨a, c0, d⟩ ∧
          n ∈ s.woken.map Entry.seq ∧ (s.awoken.map Entry.seq).count n = 1 ∧
          n ∉ s.queue.map Entry.seq) ∧
    ∀ awake, s.loop = .unlock awake → awake ≠ [] →
      s.timer.links.Ring .awakeList (linksOf awake) ∧
        ∃ cur, s.passes.getLast? = some ⟨cur, awake⟩ := by
  have hn := (RunReached.inv h).2
  have hh := RunReached.history h
  refine ⟨?_, ?_, ?_, ?_, hh.order, ?_, RunReached.onAwakeList h⟩
  · intro a c0 d hd
    have htp := hn.tp a c0 d hd
    have hc0 := hh.reading a c0 d hd
    rw [htp]
    exact ⟨rfl, fun hdn => ⟨fiberSleep_normal hc0 hdn, fiberSleep_ns c0 d⟩⟩
  · intro x hx hd
    obtain ⟨hc0, hcur, hle⟩ := hh.late x hx
    exact (fiberSleep_le hc0 hd hcur).1 hle
  · intro x hx
    exact ⟨(hh.passes x hx).2.1, fun e he => hh.due hx he⟩
  · intro n hlt
    exact hh.count hlt
  · intro a s' hs hne hout
    rcases hs.returns hne hout with hlate | ⟨n, ha⟩
    · exact .inl hlate
    · obtain ⟨⟨c0, d, hget⟩, hwoken, hcount, hq⟩ := RunReached.over h ha
      exact .inr ⟨n, c0, d, ha, hget, hwoken, hcount, hq⟩

/-- A call sleeps for 1500000000 nanoseconds from 0.6 seconds on, and a pass at 3 seconds wakes
it. -/
theorem sleeps_due_run : ∃ s : RunState Nat,
    RunReached (.pointers (Ptr Nat)) (.rotations Nat) s ∧ s.call 0 = .awake 0 ∧
      s.passes = [⟨⟨3, 0⟩, [⟨⟨2, 100000000⟩, 0, 0⟩]⟩] ∧ ∃ y, s.sleeps[0]? = some y ∧
        (⟨2, 100000000⟩ : Timespec) = fiberSleep y.c0 y.d ∧
        (y.d.Nonneg → y.c0.ns + y.d.ns ≤ (⟨3, 0⟩ : Timespec).ns) := by
  let timer : FiberTimer Nat :=
    { timeTree := .nil, minTime := none, maxTime := none, links := ⟨id, id⟩,
      tp := fun _ => ⟨0, 0⟩ }
  have h0 : RunReached (.pointers (Ptr Nat)) (.rotations Nat)
      ⟨fiberTimerInit _ timer, none, .lock, fun _ => .out, [], [], [], [], []⟩ :=
    .start ⟨timer, rfl⟩
  have h1 := h0.next (.sleep 0 ⟨0, 1500000000⟩ rfl)
    |>.next (.first (a := 0) ⟨0, 600000000⟩ rfl ⟨by decide, by decide⟩)
    |>.next (.early (a := 0) ⟨1, 0⟩ rfl ⟨by decide, by decide⟩ (by decide))
    |>.next (.addLock (a := 0) rfl rfl)
  obtain ⟨s, hs, hcall, hloop, hq, hsl, hp⟩ : ∃ s : RunState Nat,
      RunReached (.pointers (Ptr Nat)) (.rotations Nat) s ∧
      s.call 0 = .add ⟨0, 600000000⟩ ⟨0, 1500000000⟩ ∧ s.loop = .lock ∧ s.queue = [] ∧
      s.sleeps = [] ∧ s.passes = [] := ⟨_, h1, rfl, rfl, rfl, rfl, rfl⟩
  obtain ⟨r, hr, href, hearly⟩ := (RunReached.inv hs).2.insertion _ _ hcall
  have hadd := Run.add hcall hr
  rw [hq, hsl] at href hadd
  have he : r.earliest = true := hearly.2 href.minTime
  rw [if_pos he] at hadd
  have h2 := (hs.next hadd).next (.signal (a := 0) (n := 0) rfl)
    |>.next (.addUnlock (a := 0) (n := 0) rfl)
  have hlock : s.loop.notified = .lock := by rw [hloop]; rfl
  obtain ⟨u, hu, htimer, hmtx, hul, huq, hup, husl⟩ : ∃ u : RunState Nat,
      RunReached (.pointers (Ptr Nat)) (.rotations Nat) u ∧ u.timer = r.timer ∧ u.mtx = none ∧
      u.loop = .lock ∧ u.queue = [⟨⟨2, 100000000⟩, 0, 0⟩] ∧ u.passes = [] ∧
      u.sleeps = [⟨0, ⟨0, 600000000⟩, ⟨0, 1500000000⟩⟩] :=
    ⟨_, h2, rfl, rfl, hlock, rfl, hp, rfl⟩
  have hn := (RunReached.inv hu).2
  have hmin : u.timer.minTime = some 0 := by rw [hn.refines.minTime, huq]; rfl
  have htp : u.timer.tp 0 = ⟨2, 100000000⟩ :=
    hn.refines.tp ⟨⟨2, 100000000⟩, 0, 0⟩ (by rw [huq]; exact List.mem_cons_self)
  have htree : u.timer.timeTree ≠ .nil := by
    intro he
    have hw := hn.refines.walk
    rw [he, huq] at hw
    cases hw
  have hcur : timespecComp ⟨3, 0⟩ (u.timer.tp 0) = false := by rw [htp]; decide
  have hhead : u.queue.head? = some ⟨⟨2, 100000000⟩, 0, 0⟩ := by rw [huq]; rfl
  have hle : (⟨2, 100000000⟩ : Timespec) ≤ ⟨3, 0⟩ := by decide
  obtain ⟨timer', hr', -⟩ :=
    expire_spec (.pointers (Ptr Nat)) (.rotations Nat) hn.refines hhead hle
  have h3 := (hu.next (.lock hul hmtx)).next (.testFull rfl htree)
    |>.next (.pass ⟨3, 0⟩ rfl ⟨by decide, by decide⟩ hmin hcur hr')
  have hup' : upTo ⟨3, 0⟩ u.queue = [⟨⟨2, 100000000⟩, 0, 0⟩] := by rw [huq]; decide
  rw [hup, hup'] at h3
  have h4 := (h3.next (.unlock rfl)).next (.enqueue rfl)
  refine ⟨_, h4, rfl, rfl, ?_⟩
  obtain ⟨y, hget, -, hkey, hdue⟩ :=
    ((sleeps_due h4).2.2.1 _ List.mem_cons_self).2 _ List.mem_cons_self
  exact ⟨y, hget, hkey, hdue⟩

end Timer
