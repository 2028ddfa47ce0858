import FjxFiber.Lib.Monitor

/-!
# What holds in every run of a guarded object

For every lawful specification:

* `Inv`: the lock is held by exactly the caller that is inside or publishing; every blocked
  caller lies exactly once in the object's wait list or in the hands of one operation in progress
  (`Inv.placed`); a caller is resumed once for each time it blocked (`Inv.count`), and blocked
  callers are taken from the object in the order in which they blocked (`Inv.fifo`).
* `Inv.step_cases`: what a step can do to the sections; `Phase`: how far the destroying operation
  is, and `Reach.untouched`: after the free nobody is at a point where it would access the object.
* `Reach.ordered`: the sections run in the order in which the lock was acquired.
* `Reach.sequential`: an invariant of the sections run one after another is an invariant of every
  interleaving.
-/

set_option autoImplicit false

namespace Lib.Monitor

variable {F Op O : Type*} [DecidableEq F]

/-! ## Lock, waiters and log -/

variable {M : Spec F Op O} {o : O}

/-- Where the waiters lie: in the object (`none`), or in the hands of a caller. -/
def places (M : Spec F Op O) (s : State F Op O) : Option F → List F
  | none => M.waiters s.obj
  | some f => (s.pc f).held

/-- The run-time invariant. -/
structure Inv (M : Spec F Op O) (s : State F Op O) : Prop where
  lock : ∀ f, s.lock = some f ↔ (s.pc f).locked
  publishing : ∀ f op, s.pc f = .publishing op → f ∈ M.waiters s.obj
  placed : Placed (places M s) (fun f => (s.pc f).blocked)
  count : ∀ f, s.blockLog.count f = s.wakeLog.count f + if (s.pc f).blocked then 1 else 0
  fifo : s.blockLog = s.takenLog ++ M.waiters s.obj

namespace Inv

variable {s s' : State F Op O} {f g : F}

theorem start (h : M.waiters o = []) : Inv M (State.start o) where
  lock := by simp [State.start, Pc.locked]
  publishing := by simp [State.start]
  placed := .empty (fun r => by cases r <;> simp [places, State.start, h, Pc.held])
    (by simp [State.start, Pc.blocked])
  count := by simp [State.start, Pc.blocked]
  fifo := by simp [State.start, h]

/-- A waiter in somebody's hands has been suspended: its publication is over. -/
theorem waiting_of_held (h : Inv M s) (hg : g ∈ (s.pc f).held) : ∃ op, s.pc g = .waiting op := by
  have hg' : g ∈ places M s (some f) := hg
  have hb : (s.pc g).blocked = true := h.placed.live_of_mem hg'
  cases hp : s.pc g with
  | publishing op =>
    have hq : g ∈ places M s none := h.publishing g op hp
    cases h.placed.place_unique hg' hq
  | waiting op => exact ⟨op, rfl⟩
  | _ => simp [hp, Pc.blocked] at hb

/-- `f` moves from a point to `p` and waiters pass between the object and its hands. -/
theorem pass (h : Inv M s) {p : Pc F Op} (hpc : s'.pc = (s.at f p).pc)
    (hlock : ∀ g, s'.lock = some g ↔ (s'.pc g).locked)
    (hperm : (p.held ++ M.waiters s'.obj).Perm ((s.pc f).held ++ M.waiters s.obj))
    (hblocked : p.blocked = (s.pc f).blocked)
    (hpub : ∀ g op, s'.pc g = .publishing op → g ∈ M.waiters s'.obj)
    (hlog : s'.blockLog = s.blockLog ∧ s'.wakeLog = s.wakeLog)
    (htaken : s'.takenLog ++ M.waiters s'.obj = s.takenLog ++ M.waiters s.obj) : Inv M s' := by
  have hb : ∀ g, (s'.pc g).blocked = (s.pc g).blocked := fun g => by
    rw [hpc, at_pc]
    split
    · next he => rw [he, hblocked]
    · rfl
  refine ⟨hlock, hpub, ?_, fun g => by rw [hlog.1, hlog.2, h.count, hb],
    by rw [htaken, ← h.fifo, hlog.1]⟩
  refine h.placed.move (p := some f) (q := none) (by simp) ?_ (fun r hr hn => ?_) (by simp [hb])
  · simpa [places, hpc] using hperm
  · cases r with
    | none => exact absurd rfl hn
    | some g => simp [places, hpc, at_pc, show g ≠ f from fun he => hr (by rw [he])]

/-- A step of `f` between points that do not hold the lock. -/
theorem lock_at (h : Inv M s) {p : Pc F Op} (hf : (s.pc f).locked = p.locked) :
    ∀ g, (s.at f p).lock = some g ↔ ((s.at f p).pc g).locked := by
  intro g
  rw [at_lock, at_pc, h.lock g]
  split
  · next he => rw [he, hf]
  · rfl

/-- A step of the lock holder `f` that releases the lock. -/
theorem lock_release (h : Inv M s) {p : Pc F Op} (hf : (s.pc f).locked) (hp : p.locked = false) :
    ∀ g, (none : Option F) = some g ↔ ((s.at f p).pc g).locked := by
  intro g
  rw [at_pc]
  split
  · simp [hp]
  · next hg =>
    have hl : s.lock = some f := (h.lock f).2 hf
    have : ¬ s.lock = some g := by
      rw [hl]
      exact fun he => hg (Option.some.inj he).symm
    simpa using fun h' => this ((h.lock g).2 h')

/-- While `f` holds the lock nobody else is publishing. -/
theorem publishing_at (h : Inv M s) {p : Pc F Op} (hf : (s.pc f).locked)
    (hp : ∀ op, p ≠ .publishing op) (g : F) (op : Op) : (s.at f p).pc g ≠ .publishing op := by
  intro hg
  rw [at_pc] at hg
  split at hg
  · exact hp op hg
  · next hne =>
    have h1 : s.lock = some f := (h.lock f).2 hf
    have h2 : s.lock = some g := (h.lock g).2 (by simp [hg, Pc.locked])
    rw [h1] at h2
    exact hne (Option.some.inj h2).symm

/-- The publishing callers stay in an unchanged object. -/
theorem publishing_same (h : Inv M s) {p : Pc F Op} (hp : ∀ op, p ≠ .publishing op) (g : F)
    (op : Op) (hg : (s.at f p).pc g = .publishing op) : g ∈ M.waiters s.obj := by
  rw [at_pc] at hg
  split at hg
  · exact absurd hg (hp op)
  · exact h.publishing g op hg

/-- `f` links itself and starts to suspend. -/
theorem block (h : Inv M s) {op : Op} {o' : O} {secs : List (F × Op)}
    (hpc : s.pc f = .inside op) (hw : M.waiters o' = M.waiters s.obj ++ [f]) :
    Inv M { s.at f (.publishing op) with obj := o', secs, blockLog := s.blockLog ++ [f] } where
  lock := h.lock_at (by simp [hpc, Pc.locked])
  publishing g op' hg := by
    simp only [hw, List.mem_append, List.mem_singleton]
    simp only [at_pc] at hg
    split at hg
    · next he => exact .inr he
    · exact .inl (h.publishing g op' hg)
  placed := by
    refine h.placed.born (x := f) (p := none) (by simp [hpc, Pc.blocked]) ?_ (fun r hr => ?_)
      (fun a => ?_)
    · simp [places, hw]
    · cases r with
      | none => exact absurd rfl hr
      | some g =>
        simp only [places, at_pc]
        split
        · next he => simp [he, hpc, Pc.held]
        · rfl
    · simp only [at_pc]
      split
      · next he => simp [he, Pc.blocked]
      · next hne => simp [hne]
  count g := by
    have hg := h.count g
    by_cases hgf : g = f
    · subst hgf
      simp [hpc, Pc.blocked] at hg
      simp [Pc.blocked, hg]
    · simpa [at_pc, hgf, Ne.symm hgf, List.count_singleton] using hg
  fifo := by simp [hw, h.fifo]

/-- `f` resumes the waiter `g` it holds. -/
theorem resumeOne (h : Inv M s) {p : Pc F Op} (hf : (s.pc f).held = g :: p.held)
    (hl : (s.pc f).locked = p.locked) (hb : (s.pc f).blocked = false) (hp : p.blocked = false)
    (hpub : ∀ op, p ≠ .publishing op) :
    Inv M { (s.at g .runnable).at f p with wakeLog := s.wakeLog ++ [g] } := by
  obtain ⟨op, hg⟩ := h.waiting_of_held (f := f) (g := g) (by simp [hf])
  have hgf : g ≠ f := fun he => by
    rw [he] at hg
    simp [hg, Pc.blocked] at hb
  refine ⟨fun a => ?_, fun a op' ha => ?_, ?_, fun a => ?_, h.fifo⟩
  · have ha := h.lock a
    simp only [at_pc, at_lock]
    split
    · next he => rw [ha, he, hl]
    · split
      · next he => rw [ha, he, hg]; simp [Pc.locked]
      · exact ha
  · simp only [at_pc] at ha
    split at ha
    · exact absurd ha (hpub op')
    · split at ha
      · cases ha
      · exact h.publishing a op' ha
  · refine h.placed.gone (x := g) (p := some f) ?_ (fun r hr => ?_) (fun a => ?_)
    · simp [places, hf]
    · cases r with
      | none => rfl
      | some a =>
        have haf : a ≠ f := fun he => hr (by rw [he])
        simp only [places, at_pc, haf, if_false]
        split
        · next he => simp [he, hg, Pc.held]
        · rfl
    · simp only [at_pc]
      split
      · next he => simp [he, hp, hb]
      · split
        · next he => simp [he, Pc.blocked]
        · next hne => simp [hne]
  · have ha := h.count a
    by_cases haf : a = f
    · subst haf
      simpa [hb, hp, hgf, List.count_singleton] using ha
    · by_cases hag : a = g
      · subst hag
        simpa [at_pc, haf, hg, Pc.blocked] using ha
      · simpa [at_pc, haf, hag, Ne.symm hag, List.count_singleton] using ha

/-- **Critical sections**: the waiters pass as the outcome says. -/
theorem after (hM : M.Lawful) (h : Inv M s) {op : Op} (hpc : s.pc f = .inside op) :
    Inv M (s.after f op (M.sec op f s.obj)) := by
  have hl : (s.pc f).locked := by simp [hpc, Pc.locked]
  have hheld : (s.pc f).held = [] := by simp [hpc, Pc.held]
  unfold State.after
  split
  · next hr =>
    refine h.pass (f := f) rfl (h.lock_release hl rfl) ?_ (by simp [hpc, Pc.blocked])
      (fun g op' hg => absurd hg (h.publishing_at hl (by simp) g op')) ⟨rfl, rfl⟩
      (by simp [hM.ret op f s.obj hr])
    rw [hheld]
    simp [Pc.held, hM.ret op f s.obj hr]
  · next hr => exact h.block hpc (hM.block op f s.obj hr).1
  · next g hr =>
    refine h.pass (f := f) rfl (h.lock_release hl rfl) ?_ (by simp [hpc, Pc.blocked])
      (fun g op' hg => absurd hg (h.publishing_at hl (by simp) g op')) ⟨rfl, rfl⟩
      (by simp [hM.wake op f s.obj g hr])
    rw [hheld]
    simp [Pc.held, hM.wake op f s.obj g hr]
  · next gs hr =>
    refine h.pass (f := f) rfl (h.lock_release hl rfl) ?_ (by simp [hpc, Pc.blocked])
      (fun g op' hg => absurd hg (h.publishing_at hl (by simp) g op')) ⟨rfl, rfl⟩
      (by simp [hM.drain op f s.obj gs hr])
    rw [hheld]
    simp [Pc.held, hM.drain op f s.obj gs hr]

/-- **Every step keeps the invariant.** -/
theorem step (hM : M.Lawful) (h : Inv M s) (hs : Step M s s') : Inv M s' := by
  cases hs with
  | @call f op hpc =>
    exact h.pass (f := f) rfl (h.lock_at (by simp [hpc, Pc.locked])) (by simp [hpc, Pc.held])
      (by simp [hpc, Pc.blocked]) (h.publishing_same (by simp)) ⟨rfl, rfl⟩
      rfl
  | @acquire f op hpc hlock =>
    refine h.pass (f := f) rfl (fun g => ?_) (by simp [hpc, Pc.held]) (by simp [hpc, Pc.blocked])
      (h.publishing_same (by simp)) ⟨rfl, rfl⟩ rfl
    simp only [at_pc]
    split
    · next he => simp [he, Pc.locked]
    · next hg =>
      have : ¬ (s.pc g).locked := fun hl => by simp [(h.lock g).2 hl] at hlock
      simp [Ne.symm hg, this]
  | critical f op hpc => exact h.after hM hpc
  | @publish f op hpc =>
    exact h.pass (f := f) rfl (h.lock_release (by simp [hpc, Pc.locked]) rfl)
      (by simp [hpc, Pc.held]) (by simp [hpc, Pc.blocked]) (h.publishing_same (by simp)) ⟨rfl, rfl⟩
      rfl
  | hand hpc =>
    exact h.resumeOne (by simp [hpc, Pc.held]) (by simp [hpc, Pc.locked])
      (by simp [hpc, Pc.blocked]) rfl (by simp)
  | @free f gs hpc =>
    exact h.pass (f := f) rfl (h.lock_at (by simp [hpc, Pc.locked])) (by simp [hpc, Pc.held])
      (by simp [hpc, Pc.blocked]) (h.publishing_same (by simp)) ⟨rfl, rfl⟩
      rfl
  | wake hpc =>
    exact h.resumeOne (by simp [hpc, Pc.held]) (by simp [hpc, Pc.locked])
      (by simp [hpc, Pc.blocked]) rfl (by simp)
  | @woken f hpc =>
    exact h.pass (f := f) rfl (h.lock_at (by simp [hpc, Pc.locked])) (by simp [hpc, Pc.held])
      (by simp [hpc, Pc.blocked]) (h.publishing_same (by simp)) ⟨rfl, rfl⟩
      rfl
  | @resume f hpc =>
    exact h.pass (f := f) rfl (h.lock_at (by simp [hpc, Pc.locked])) (by simp [hpc, Pc.held])
      (by simp [hpc, Pc.blocked]) (h.publishing_same (by simp)) ⟨rfl, rfl⟩
      rfl

end Inv

/-! ## What a step can do -/

/-- A call of `op` by `f` has started and its section is still to run. -/
def Pending (s : State F Op O) (f : F) (op : Op) : Prop :=
  s.pc f = .want op ∨ s.pc f = .inside op

/-- Nobody enters or leaves a section or the point before the free, and the lock is not taken. -/
structure Quiet (s s' : State F Op O) : Prop where
  inside : ∀ g op, s'.pc g = .inside op ↔ s.pc g = .inside op
  freeing : ∀ g gs, s'.pc g = .freeing gs ↔ s.pc g = .freeing gs
  lock : s'.lock = s.lock ∨ s'.lock = none
  closing : s'.closing = s.closing
  freed : s'.freed = s.freed
  obj : s'.obj = s.obj ∧ s'.secs = s.secs ∧ s'.order = s.order ∧ s'.takenLog = s.takenLog

/-- Moving `f` between points that are neither in the section nor before the free. -/
theorem at_quiet {s : State F Op O} {f : F} {p : Pc F Op} (P : Pc F Op → Prop)
    (hf : ¬ P (s.pc f)) (hp : ¬ P p) (g : F) : P ((s.at f p).pc g) ↔ P (s.pc g) := by
  rw [at_pc]
  split
  · next he => rw [he]; exact ⟨fun h => absurd h hp, fun h => absurd h hf⟩
  · rfl

/-- `f` moves between points outside the section and the free. -/
theorem Quiet.move {s : State F Op O} {f : F} {p : Pc F Op} (h1 : ∀ op, s.pc f ≠ .inside op)
    (h2 : ∀ gs, s.pc f ≠ .freeing gs) (h3 : ∀ op, p ≠ .inside op) (h4 : ∀ gs, p ≠ .freeing gs) :
    Quiet s (s.at f p) where
  inside g op := at_quiet (· = .inside op) (h1 op) (h3 op) g
  freeing g gs := at_quiet (· = .freeing gs) (h2 gs) (h4 gs) g
  lock := .inl rfl
  closing := rfl
  freed := rfl
  obj := ⟨rfl, rfl, rfl, rfl⟩

/-- `f` resumes a waiter it holds. -/
theorem Inv.quiet_resume {s : State F Op O} (h : Inv M s) {f g : F} {p : Pc F Op}
    (hg : g ∈ (s.pc f).held) (h2 : ∀ gs, s.pc f ≠ .freeing gs) (h3 : ∀ op, p ≠ .inside op)
    (h4 : ∀ gs, p ≠ .freeing gs) : Quiet s ((s.at g .runnable).at f p) := by
  obtain ⟨op, hw⟩ := h.waiting_of_held hg
  have hfg : f ≠ g := fun he => by
    rw [he, hw] at hg
    simp [Pc.held] at hg
  have hfi : ∀ op, s.pc f ≠ .inside op := fun op hi => by
    rw [hi] at hg
    simp [Pc.held] at hg
  have hq1 : Quiet s (s.at g .runnable) :=
    .move (by simp [hw]) (by simp [hw]) (by simp) (by simp)
  have hq2 : Quiet (s.at g .runnable) ((s.at g .runnable).at f p) :=
    .move (by simpa [at_pc, hfg] using hfi) (by simpa [at_pc, hfg] using h2) h3 h4
  exact ⟨fun a op => (hq2.inside a op).trans (hq1.inside a op),
    fun a gs => (hq2.freeing a gs).trans (hq1.freeing a gs), .inl rfl, rfl, rfl, rfl, rfl, rfl, rfl⟩

/-- **What a step does**: a call starts, the lock is taken, a section runs, the object is freed,
or the step is quiet and no call becomes pending. -/
theorem Inv.step_cases {s s' : State F Op O} (h : Inv M s) (hs : Step M s s') :
    (∃ f op, s.pc f = .idle ∧ s.closing = false ∧ M.may s.obj f op ∧ s' = s.at f (.want op) ∧
      Quiet s s') ∨
    (∃ f op, s.pc f = .want op ∧ s.lock = none ∧ s.closing = false ∧
      s' = { s.at f (.inside op) with
        lock := some f, order := s.order ++ [(f, op)], closing := M.closes op }) ∨
    (∃ f op, s.pc f = .inside op ∧ s' = s.after f op (M.sec op f s.obj)) ∨
    (∃ f gs, s.pc f = .freeing gs ∧ s' = { s.at f (.waking gs) with freed := true }) ∨
    ((∀ f op, s'.pc f = .want op → s.pc f = .want op) ∧ Quiet s s') := by
  have hwant : ∀ (s : State F Op O) f p, (∀ op, p ≠ .want op) → ∀ g op,
      (s.at f p).pc g = .want op → s.pc g = .want op := fun s f p hp g op hg => by
    rw [at_pc] at hg
    split at hg
    · exact absurd hg (hp op)
    · exact hg
  cases hs with
  | @call f op hpc hopen hmay =>
    exact .inl ⟨f, op, hpc, hopen, hmay, rfl,
      .move (by simp [hpc]) (by simp [hpc]) (by simp) (by simp)⟩
  | @acquire f op hpc hlock hopen => exact .inr (.inl ⟨f, op, hpc, hlock, hopen, rfl⟩)
  | @critical f op hpc => exact .inr (.inr (.inl ⟨f, op, hpc, rfl⟩))
  | @free f gs hpc => exact .inr (.inr (.inr (.inl ⟨f, gs, hpc, rfl⟩)))
  | @publish f op hpc =>
    refine .inr (.inr (.inr (.inr ⟨hwant s f _ (by simp), ?_⟩)))
    have hq : Quiet s (s.at f (.waiting op)) :=
      .move (by simp [hpc]) (by simp [hpc]) (by simp) (by simp)
    exact { hq with lock := .inr rfl }
  | @hand f g hpc =>
    refine .inr (.inr (.inr (.inr ⟨fun a op ha => ?_, ?_⟩)))
    · exact hwant s g .runnable (by simp) a op (hwant _ f .idle (by simp) a op ha)
    · have hq := h.quiet_resume (f := f) (g := g) (p := .idle) (by simp [hpc, Pc.held])
        (by simp [hpc]) (by simp) (by simp)
      exact { hq with }
  | @wake f g gs hpc =>
    refine .inr (.inr (.inr (.inr ⟨fun a op ha => ?_, ?_⟩)))
    · exact hwant s g .runnable (by simp) a op (hwant _ f (.waking gs) (by simp) a op ha)
    · have hq := h.quiet_resume (f := f) (g := g) (p := .waking gs) (by simp [hpc, Pc.held])
        (by simp [hpc]) (by simp) (by simp)
      exact { hq with }
  | @woken f hpc =>
    exact .inr (.inr (.inr (.inr ⟨hwant s f _ (by simp),
      .move (by simp [hpc]) (by simp [hpc]) (by simp) (by simp)⟩)))
  | @resume f hpc =>
    exact .inr (.inr (.inr (.inr ⟨hwant s f _ (by simp),
      .move (by simp [hpc]) (by simp [hpc]) (by simp) (by simp)⟩)))

/-! ## The destroying operation -/

/-- How far the destroying operation is: it holds the lock, is about to free the object, or has
freed it. Before it took the lock nobody is at one of its points. -/
inductive Phase (M : Spec F Op O) (s : State F Op O) : Prop
  | «open» (hc : s.closing = false) (hfr : s.freed = false)
      (hop : ∀ f op, s.pc f = .inside op → M.closes op = false)
      (hno : ∀ f gs, s.pc f ≠ .freeing gs)
  | inside (d : F) (op : Op) (hc : s.closing = true) (hfr : s.freed = false)
      (hd : s.pc d = .inside op) (hop : M.closes op = true) (hno : ∀ f gs, s.pc f ≠ .freeing gs)
  | freeing (d : F) (gs : List F) (hc : s.closing = true) (hfr : s.freed = false)
      (hl : s.lock = none) (hd : s.pc d = .freeing gs)
      (hno : ∀ f, f ≠ d → ∀ gs', s.pc f ≠ .freeing gs')
  | freed (hc : s.closing = true) (hl : s.lock = none) (hno : ∀ f gs, s.pc f ≠ .freeing gs)

omit [DecidableEq F] in
theorem Phase.start : Phase M (State.start o) :=
  .open rfl rfl (by simp [State.start]) (by simp [State.start])

omit [DecidableEq F] in
/-- Nobody enters or leaves a section or the point before the free. -/
theorem Phase.quiet {s s' : State F Op O} (h : Phase M s) (hq : Quiet s s') : Phase M s' := by
  obtain ⟨hin, hfree, hl, hc, hfr, -⟩ := hq
  cases h with
  | «open» h1 h2 h3 h4 =>
    exact .open (hc.trans h1) (hfr.trans h2) (fun g op hg => h3 g op ((hin g op).1 hg))
      fun g gs hg => h4 g gs ((hfree g gs).1 hg)
  | inside d op h1 h2 h3 h4 h5 =>
    exact .inside d op (hc.trans h1) (hfr.trans h2) ((hin d op).2 h3) h4
      fun g gs hg => h5 g gs ((hfree g gs).1 hg)
  | freeing d gs h1 h2 h3 h4 h5 =>
    exact .freeing d gs (hc.trans h1) (hfr.trans h2) (by rcases hl with h | h <;> simp [h, h3])
      ((hfree d gs).2 h4) fun g hg gs' hg' => h5 g hg gs' ((hfree g gs').1 hg')
  | freed h1 h2 h3 =>
    exact .freed (hc.trans h1) (by rcases hl with h | h <;> simp [h, h2])
      fun g gs hg => h3 g gs ((hfree g gs).1 hg)

/-- Taking the lock: the destroying operation starts, or nothing changes. -/
theorem Phase.acquire {s : State F Op O} (h : Phase M s) {f : F} {op : Op}
    (hopen : s.closing = false) :
    Phase M { s.at f (.inside op) with
      lock := some f, order := s.order ++ [(f, op)], closing := M.closes op } := by
  obtain ⟨-, hfr, hop, hno⟩ | ⟨_, _, hc, _⟩ | ⟨_, _, hc, _⟩ | ⟨hc, _⟩ := h
  · have hno' : ∀ g gs, (s.at f (.inside op)).pc g ≠ .freeing gs := fun g gs => by
      rw [at_pc]
      split
      · simp
      · exact hno g gs
    by_cases hcl : M.closes op = true
    · exact .inside f op hcl hfr (by simp) hcl hno'
    · have hcl' : M.closes op = false := by simpa using hcl
      refine .open hcl' hfr (fun g op' hg => ?_) hno'
      simp only [at_pc] at hg
      split at hg
      · cases hg; exact hcl'
      · exact hop g op' hg
  all_goals simp [hc] at hopen

/-- The section of `f`: only the destroying operation goes on to the free. -/
theorem Phase.critical {s : State F Op O} (hM : M.Lawful) (hI : Inv M s) (h : Phase M s) {f : F}
    {op : Op} (hpc : s.pc f = .inside op) : Phase M (s.after f op (M.sec op f s.obj)) := by
  have hlf : s.lock = some f := (hI.lock f).2 (by simp [hpc, Pc.locked])
  have hcl := hM.closes op f s.obj
  obtain ⟨hc, hfr, hop, hno⟩ | ⟨d, op', hc, hfr, hd, hop, hno⟩ | ⟨_, _, _, _, hl, _⟩ |
    ⟨_, hl, _⟩ := h
  · rw [hop f op hpc] at hcl
    have hin : ∀ p, (∀ op, p ≠ .inside op) → ∀ g op, (s.at f p).pc g = .inside op →
        M.closes op = false := fun p hp g op hg => by
      rw [at_pc] at hg
      split at hg
      · exact absurd hg (hp op)
      · exact hop g op hg
    have hno' : ∀ p, (∀ gs, p ≠ .freeing gs) → ∀ g gs, (s.at f p).pc g ≠ .freeing gs :=
      fun p hp g gs => by
        rw [at_pc]
        split
        · exact hp gs
        · exact hno g gs
    unfold State.after
    split
    · exact .open hc hfr (hin _ (by simp)) (hno' _ (by simp))
    · exact .open hc hfr (hin _ (by simp)) (hno' _ (by simp))
    · exact .open hc hfr (hin _ (by simp)) (hno' _ (by simp))
    · next gs hr => exact absurd (hcl.2 ⟨gs, hr⟩) (by simp)
  · have hfd : f = d := by
      have := (hI.lock d).2 (by simp [hd, Pc.locked])
      rw [hlf] at this
      exact Option.some.inj this
    subst hfd
    rw [hpc] at hd
    cases hd
    obtain ⟨gs, hr⟩ := hcl.1 hop
    unfold State.after
    rw [hr]
    refine .freeing f gs hc hfr rfl (by simp) fun g hg gs' => ?_
    simpa [at_pc, hg] using hno g gs'
  · simp [hl] at hlf
  · simp [hl] at hlf

theorem Phase.free {s : State F Op O} (h : Phase M s) {f : F} {gs : List F}
    (hpc : s.pc f = .freeing gs) : Phase M { s.at f (.waking gs) with freed := true } := by
  obtain ⟨_, _, _, hno⟩ | ⟨_, _, _, _, _, _, hno⟩ | ⟨d, gs', hc, -, hl, hd, hno⟩ | ⟨_, _, hno⟩ := h
  · exact absurd hpc (hno f gs)
  · exact absurd hpc (hno f gs)
  · have hfd : f = d := by
      by_contra hne
      exact hno f hne gs hpc
    refine .freed hc hl fun g gs'' => ?_
    simp only [at_pc]
    split
    · simp
    · next hg => exact hno g (by rw [← hfd]; exact hg) gs''
  · exact absurd hpc (hno f gs)

theorem Phase.step {s s' : State F Op O} (hM : M.Lawful) (hI : Inv M s) (h : Phase M s)
    (hs : Step M s s') : Phase M s' := by
  rcases hI.step_cases hs with ⟨f, op, -, -, -, rfl, hq⟩ | ⟨f, op, -, -, hopen, rfl⟩ |
    ⟨f, op, hpc, rfl⟩ | ⟨f, gs, hpc, rfl⟩ | ⟨-, hq⟩
  · exact h.quiet hq
  · exact h.acquire hopen
  · exact h.critical hM hI hpc
  · exact h.free hpc
  · exact h.quiet hq

/-! ## The sections in lock order -/

section
variable {s s' : State F Op O} {f g : F} {op : Op} {r : O × Outcome F}

theorem after_obj : (s.after f op r).obj = r.1 := by
  unfold State.after; split <;> rfl

theorem after_secs : (s.after f op r).secs = s.secs ++ [(f, op)] := by
  unfold State.after; split <;> rfl

theorem after_takenLog : (s.after f op r).takenLog = s.takenLog ++ r.2.taken := by
  unfold State.after; split <;> simp_all [Outcome.taken]

theorem after_order : (s.after f op r).order = s.order := by
  unfold State.after; split <;> rfl

theorem after_closing : (s.after f op r).closing = s.closing := by
  unfold State.after; split <;> rfl

theorem after_pc_ne (h : g ≠ f) : (s.after f op r).pc g = s.pc g := by
  unfold State.after; split <;> simp [at_pc, h]

theorem after_pc_self : (s.after f op r).pc f = match r.2 with
    | .ret => .idle
    | .block => .publishing op
    | .wake g => .handing g
    | .drain gs => .freeing gs := by
  unfold State.after; split <;> simp [*]

end

/-- After a section nobody is inside. -/
theorem Inv.not_inside_after {s : State F Op O} (hI : Inv M s) {f : F} {op : Op}
    {r : O × Outcome F} (hpc : s.pc f = .inside op) (g : F) (op' : Op) :
    (s.after f op r).pc g ≠ .inside op' := by
  intro hg
  by_cases hgf : g = f
  · subst hgf
    rw [after_pc_self] at hg
    split at hg <;> cases hg
  · rw [after_pc_ne hgf] at hg
    have h1 := (hI.lock f).2 (by simp [hpc, Pc.locked])
    have h2 := (hI.lock g).2 (by simp [hg, Pc.locked])
    rw [h1] at h2
    exact hgf (Option.some.inj h2).symm

/-- The sections run in the order of the acquisitions; only the section of the caller inside is
still to run. -/
def Ordered (s : State F Op O) : Prop :=
  (∀ f op, s.pc f ≠ .inside op) ∧ s.order = s.secs ∨
    ∃ f op, s.pc f = .inside op ∧ s.order = s.secs ++ [(f, op)]

omit [DecidableEq F] in
theorem Ordered.quiet {s s' : State F Op O} (h : Ordered s) (hq : Quiet s s') : Ordered s' := by
  obtain ⟨-, h1, h2, -⟩ := hq.obj
  rcases h with ⟨hn, ho⟩ | ⟨f, op, hf, ho⟩
  · exact .inl ⟨fun f op hf => hn f op ((hq.inside f op).1 hf), by rw [h1, h2, ho]⟩
  · exact .inr ⟨f, op, (hq.inside f op).2 hf, by rw [h1, h2, ho]⟩

theorem Ordered.step {s s' : State F Op O} (hI : Inv M s) (h : Ordered s) (hs : Step M s s') :
    Ordered s' := by
  rcases hI.step_cases hs with ⟨f, op, -, -, -, -, hq⟩ | ⟨f, op, hpc, hl, -, rfl⟩ |
    ⟨f, op, hpc, rfl⟩ | ⟨f, gs, hpc, rfl⟩ | ⟨-, hq⟩
  · exact h.quiet hq
  · -- the lock is free, so every section so far has been run
    rcases h with ⟨-, ho⟩ | ⟨g, op', hg, -⟩
    · exact .inr ⟨f, op, by simp, by simp [ho]⟩
    · have := (hI.lock g).2 (by simp [hg, Pc.locked])
      simp [hl] at this
  · refine .inl ⟨hI.not_inside_after hpc, ?_⟩
    · rw [after_order, after_secs]
      rcases h with ⟨hn, -⟩ | ⟨g, op', hg, ho⟩
      · exact absurd hpc (hn f op)
      · have h1 := (hI.lock f).2 (by simp [hpc, Pc.locked])
        have h2 := (hI.lock g).2 (by simp [hg, Pc.locked])
        rw [h1] at h2
        cases h2
        rw [hpc] at hg
        cases hg
        exact ho
  · have hin := fun g op => at_quiet (s := s) (f := f) (p := .waking gs) (· = .inside op)
      (by simp [hpc]) (by simp) g
    rcases h with ⟨hn, ho⟩ | ⟨g, op, hg, ho⟩
    · exact .inl ⟨fun g op hg => hn g op ((hin g op).1 hg), ho⟩
    · exact .inr ⟨g, op, (hin g op).2 hg, ho⟩
  · exact h.quiet hq

/-- Before the destroying operation has taken the lock, and whenever a section is to run, no
section has destroyed the object; after it has released the lock, its section has. -/
structure LiveLog (M : Spec F Op O) (s : State F Op O) : Prop where
  «open» : s.closing = false → M.Live s.secs
  inside : ∀ f op, s.pc f = .inside op → M.Live s.secs
  closed : s.closing = true → s.lock = none → ¬ M.Live s.secs

theorem LiveLog.quiet {s s' : State F Op O} (hP : Phase M s) (h : LiveLog M s)
    (hq : Quiet s s') (hI' : Inv M s') : LiveLog M s' := by
  obtain ⟨-, h1, -⟩ := hq.obj
  refine ⟨fun hc => ?_, fun f op hf => ?_, fun hc hl => ?_⟩ <;> rw [h1]
  · exact h.open (hq.closing ▸ hc)
  · exact h.inside f op ((hq.inside f op).1 hf)
  · rw [hq.closing] at hc
    refine h.closed hc ?_
    obtain ⟨hc', _⟩ | ⟨d, op, _, _, hd, _⟩ | ⟨_, _, _, _, hl', _⟩ | ⟨_, hl', _⟩ := hP
    · simp [hc'] at hc
    · -- the destroying operation would still hold the lock
      have := (hI'.lock d).2 (by simp [(hq.inside d op).2 hd, Pc.locked])
      simp [hl] at this
    · exact hl'
    · exact hl'

theorem LiveLog.step {s s' : State F Op O} (hI : Inv M s) (hP : Phase M s) (h : LiveLog M s)
    (hM : M.Lawful) (hs : Step M s s') : LiveLog M s' := by
  have hI' := hI.step hM hs
  rcases hI.step_cases hs with ⟨f, op, -, -, -, -, hq⟩ | ⟨f, op, hpc, hl, hopen, rfl⟩ |
    ⟨f, op, hpc, rfl⟩ | ⟨f, gs, hpc, rfl⟩ | ⟨-, hq⟩
  · exact h.quiet hP hq hI'
  · exact ⟨fun _ => h.open hopen, fun _ _ _ => h.open hopen, fun _ hl => nomatch hl⟩
  · refine ⟨fun hc => ?_, fun g op' hg => ?_, fun hc _ hlive => ?_⟩
    · -- a section with the object open is not the destroying one
      have hc' : s.closing = false := by rwa [after_closing] at hc
      rw [after_secs]
      intro x hx
      rcases List.mem_append.1 hx with hx | hx
      · exact h.open hc' x hx
      · obtain ⟨-, -, hop, -⟩ | ⟨_, _, h1, _⟩ | ⟨_, _, h1, _⟩ | ⟨h1, _⟩ := hP
        · simp only [List.mem_singleton] at hx
          rw [hx]
          exact hop f op hpc
        all_goals simp [h1] at hc'
    · exact absurd hg (hI.not_inside_after hpc g op')
    · rw [after_closing] at hc
      rw [after_secs] at hlive
      have hop' := hlive (f, op) (by simp)
      have hlf := (hI.lock f).2 (by simp [hpc, Pc.locked])
      obtain ⟨hc', _⟩ | ⟨d, op', _, _, hd, hop, _⟩ | ⟨_, _, _, _, hl', _⟩ | ⟨_, hl', _⟩ := hP
      · simp [hc'] at hc
      · have h2 := (hI.lock d).2 (by simp [hd, Pc.locked])
        rw [hlf] at h2
        cases h2
        rw [hpc] at hd
        cases hd
        simp [hop] at hop'
      · simp [hl'] at hlf
      · simp [hl'] at hlf
  · have hin := fun g op => at_quiet (s := s) (f := f) (p := .waking gs) (· = .inside op)
      (by simp [hpc]) (by simp) g
    exact ⟨h.open, fun g op hg => h.inside g op ((hin g op).1 hg), h.closed⟩
  · exact h.quiet hP hq hI'

/-- **The sequential rule**: `J` relates the sections run so far and the waiters they took to the
object, and `D` is what a caller relies on from the start of its call until its section. If the
caller's discipline gives `D`, a section keeps `J`, and nobody else's section takes `D` away, both
hold in every run. -/
theorem sequential_step {J : List (F × Op) → List F → O → Prop} {D : O → F → Op → Prop}
    (hmay : ∀ l t o f op, M.Live l → J l t o → M.may o f op → D o f op)
    (hsec : ∀ l t o f op, M.Live l → J l t o → D o f op →
      J (l ++ [(f, op)]) (t ++ (M.sec op f o).2.taken) (M.sec op f o).1)
    (hkeep : ∀ l t o f op g op', M.Live l → J l t o → f ≠ g → D o f op → D o g op' →
      D (M.sec op' g o).1 f op)
    {s s' : State F Op O} (hI : Inv M s) (hL : LiveLog M s)
    (h : J s.secs s.takenLog s.obj ∧ ∀ f op, Pending s f op → D s.obj f op) (hs : Step M s s') :
    J s'.secs s'.takenLog s'.obj ∧ ∀ f op, Pending s' f op → D s'.obj f op := by
  obtain ⟨hJ, hD⟩ := h
  rcases hI.step_cases hs with ⟨f, op, hpc, hopen, hm, rfl, -⟩ | ⟨f, op, hpc, -, -, rfl⟩ |
    ⟨f, op, hpc, rfl⟩ | ⟨f, gs, hpc, rfl⟩ | ⟨hw, hq⟩
  · refine ⟨hJ, fun g op' hg => ?_⟩
    by_cases hgf : g = f
    · subst hgf
      have hop : op' = op := by simpa [Pending, eq_comm] using hg
      rw [hop]
      exact hmay _ _ _ g op (hL.open hopen) hJ hm
    · exact hD g op' (by simpa [Pending, at_pc, hgf] using hg)
  · refine ⟨hJ, fun g op' hg => ?_⟩
    by_cases hgf : g = f
    · subst hgf
      have hop : op' = op := by simpa [Pending, eq_comm] using hg
      rw [hop]
      exact hD g op (.inl hpc)
    · exact hD g op' (by simpa [Pending, at_pc, hgf] using hg)
  · have hDf := hD f op (.inr hpc)
    have hl := hL.inside f op hpc
    rw [after_secs, after_takenLog, after_obj]
    refine ⟨hsec _ _ _ f op hl hJ hDf, fun g op' hg => ?_⟩
    by_cases hgf : g = f
    · subst hgf
      rw [Pending, after_pc_self] at hg
      split at hg <;> simp at hg
    · rw [Pending, after_pc_ne hgf] at hg
      exact hkeep _ _ _ g op' f op hl hJ hgf (hD g op' hg) hDf
  · refine ⟨hJ, fun g op hg => hD g op ?_⟩
    have h1 := at_quiet (s := s) (f := f) (p := .waking gs) (· = .inside op) (by simp [hpc])
      (by simp) g
    have h2 := at_quiet (s := s) (f := f) (p := .waking gs) (· = .want op) (by simp [hpc])
      (by simp) g
    exact hg.imp h2.1 h1.1
  · obtain ⟨h1, h2, -, h3⟩ := hq.obj
    rw [h1, h2, h3]
    exact ⟨hJ, fun g op hg => hD g op (hg.imp (hw g op) (hq.inside g op).1)⟩

/-! ## Reachable states -/

section
variable {s : State F Op O} (hM : M.Lawful) (ho : M.waiters o = [])
include hM ho

theorem Reach.inv (h : Reach M o s) : Inv M s :=
  h.invariant (fun _ h0 => h0 ▸ Inv.start ho) fun _ _ hi hs => hi.step hM hs

theorem Reach.phase (h : Reach M o s) : Phase M s :=
  h.invariant_from (fun _ h => Reach.inv hM ho h) (fun _ h0 => h0 ▸ Phase.start)
    fun _ _ hI hP hs => hP.step hM hI hs

/-- The sections are run in the order in which the lock was acquired. -/
theorem Reach.ordered (h : Reach M o s) : Ordered s :=
  h.invariant_from (fun _ h => Reach.inv hM ho h)
    (fun _ h0 => h0 ▸ .inl ⟨by simp [State.start], rfl⟩) fun _ _ hI hO hs => hO.step hI hs

/-- The calls of `op` in lock order: those whose section has run, then the one still inside. -/
theorem Reach.callers_order [DecidableEq Op] (h : Reach M o s) (op : Op) :
    ∃ last, callers op s.order = callers op s.secs ++ last ∧
      (last = [] ∨ ∃ f, last = [f] ∧ s.pc f = .inside op) := by
  rcases Reach.ordered hM ho h with ⟨-, ho⟩ | ⟨f, op', hf, ho⟩
  · exact ⟨[], by simp [ho], .inl rfl⟩
  · by_cases hop : op' = op
    · subst hop
      exact ⟨[f], by simp [ho], .inr ⟨f, rfl, hf⟩⟩
    · exact ⟨[], by simp [ho, hop], .inl rfl⟩

theorem Reach.liveLog (h : Reach M o s) : LiveLog M s :=
  h.invariant_from (fun _ h => And.intro (Reach.inv hM ho h) (Reach.phase hM ho h))
    (fun _ h0 => h0 ▸ ⟨fun _ => by simp [Spec.Live, State.start], by simp [State.start],
      by simp [State.start]⟩)
    fun _ _ hI hL hs => hL.step hI.1 hI.2 hM hs

theorem Reach.sequential {J : List (F × Op) → List F → O → Prop} {D : O → F → Op → Prop}
    (h0 : J [] [] o)
    (hmay : ∀ l t o f op, M.Live l → J l t o → M.may o f op → D o f op)
    (hsec : ∀ l t o f op, M.Live l → J l t o → D o f op →
      J (l ++ [(f, op)]) (t ++ (M.sec op f o).2.taken) (M.sec op f o).1)
    (hkeep : ∀ l t o f op g op', M.Live l → J l t o → f ≠ g → D o f op → D o g op' →
      D (M.sec op' g o).1 f op)
    (h : Reach M o s) : J s.secs s.takenLog s.obj ∧ ∀ f op, Pending s f op → D s.obj f op :=
  h.invariant_from (fun _ h => And.intro (Reach.inv hM ho h) (Reach.liveLog hM ho h))
    (fun _ hs => hs ▸ ⟨h0, by simp [Pending, State.start]⟩)
    fun _ _ hI hJ hs => sequential_step hmay hsec hkeep hI.1 hI.2 hJ hs

/-- **After the free nobody is at a point where it would access the object.** -/
theorem Reach.untouched (h : Reach M o s) (hf : s.freed = true) (f : F) :
    (s.pc f).touches = false := by
  obtain ⟨_, hfr, _⟩ | ⟨_, _, _, hfr, _⟩ | ⟨_, _, _, hfr, _⟩ | ⟨_, hl, hno⟩ := Reach.phase hM ho h
  · simp [hfr] at hf
  · simp [hfr] at hf
  · simp [hfr] at hf
  · have hlock := ((Reach.inv hM ho h).lock f)
    rw [hl] at hlock
    cases hp : s.pc f with
    | inside op => simp [hp, Pc.locked] at hlock
    | publishing op => simp [hp, Pc.locked] at hlock
    | freeing gs => exact absurd hp (hno f gs)
    | _ => rfl

/-- Every waiter taken from the object is resumed once, or is in the hands of the one operation
that is about to resume it. -/
theorem Reach.taken_count (h : Reach M o s) (g : F) :
    ((∃ f, g ∈ (s.pc f).held) → s.takenLog.count g = s.wakeLog.count g + 1) ∧
      ((∀ f, g ∉ (s.pc f).held) → s.takenLog.count g = s.wakeLog.count g) := by
  have hI := Reach.inv hM ho h
  have hc := hI.count g
  have ht := congrArg (List.count g) hI.fifo
  rw [List.count_append] at ht
  constructor
  · rintro ⟨f, hg⟩
    have hg' : g ∈ places M s (some f) := hg
    have hb : (s.pc g).blocked = true := hI.placed.live_of_mem hg'
    have hq : g ∉ M.waiters s.obj := fun hq => by
      cases hI.placed.place_unique (q := none) hg' hq
    rw [if_pos hb] at hc
    rw [List.count_eq_zero_of_not_mem hq] at ht
    omega
  · intro hn
    by_cases hb : (s.pc g).blocked = true
    · -- a blocked caller in nobody's hands is still linked in the object
      obtain ⟨p, hp⟩ := hI.placed.exists_place hb
      cases p with
      | some f => exact absurd hp (hn f)
      | none =>
        have h1 : (M.waiters s.obj).count g = 1 := hI.placed.count_eq_one hp
        rw [if_pos hb] at hc
        omega
    · have hq : g ∉ places M s none := fun hq => hb (hI.placed.live_of_mem hq)
      have hz : (M.waiters s.obj).count g = 0 := List.count_eq_zero_of_not_mem hq
      rw [if_neg hb] at hc
      omega

/-- With nobody linked in the object and no waiter in anybody's hands, nobody is blocked and
everybody has been resumed as often as it blocked. -/
theorem Reach.none_blocked (h : Reach M o s) (hw : M.waiters s.obj = [])
    (hh : ∀ f, (s.pc f).held = []) (g : F) :
    (s.pc g).blocked = false ∧ s.blockLog.count g = s.wakeLog.count g := by
  have hI := Reach.inv hM ho h
  have hb : (s.pc g).blocked = false := by
    by_contra hb
    obtain ⟨p, hp⟩ := hI.placed.exists_place (by simpa using hb)
    cases p with
    | none => simp [places, hw] at hp
    | some f => simp [places, hh f] at hp
  exact ⟨hb, by simpa [hb] using hI.count g⟩

end

/-! ## Whoever has waiters in its hands can resume them -/

/-- The caller `f` goes on alone, and resumes everybody in its hands, in order. -/
structure Finishes (M : Spec F Op O) (s : State F Op O) (f : F) (s' : State F Op O) : Prop where
  run : Relation.ReflTransGen (Step M) s s'
  held : (s'.pc f).held = []
  wakes : s'.wakeLog = s.wakeLog ++ (s.pc f).held
  resumed : ∀ g ∈ (s.pc f).held, s'.pc g = .runnable
  others : ∀ g, g ≠ f → g ∉ (s.pc f).held → s'.pc g = s.pc g

section
variable {s : State F Op O} {f : F}

theorem finishes_of_empty (h : (s.pc f).held = []) : Finishes M s f s where
  run := .refl
  held := h
  wakes := by rw [h, List.append_nil]
  resumed g hg := by
    rw [h] at hg
    cases hg
  others _ _ _ := rfl

theorem exists_finishes_waking {gs : List F} (h : s.pc f = .waking gs) (hf : f ∉ gs) :
    ∃ s', Finishes M s f s' := by
  induction gs generalizing s with
  | nil => exact ⟨s, finishes_of_empty (by rw [h]; rfl)⟩
  | cons g gs ih =>
    obtain ⟨hfg, hf⟩ : f ≠ g ∧ f ∉ gs := by simpa using hf
    have hs := Step.wake (M := M) h
    obtain ⟨s', h'⟩ := ih (s := { (s.at g .runnable).at f (.waking gs) with
      wakeLog := s.wakeLog ++ [g] }) (at_pc_self _ _ _) hf
    have hheld : (({ (s.at g .runnable).at f (.waking gs) with
      wakeLog := s.wakeLog ++ [g] } : State F Op O).pc f).held = gs := by simp [Pc.held]
    obtain ⟨hrun, hdone, hwakes, hresumed, hothers⟩ := h'
    rw [hheld] at hwakes hresumed hothers
    refine ⟨s', .head hs hrun, hdone, ?_, fun a ha => ?_, fun a ha hag => ?_⟩
    · rw [hwakes, h]
      simp [Pc.held]
    · rw [h] at ha
      by_cases hm : a ∈ gs
      · exact hresumed a hm
      · obtain rfl : a = g := (List.mem_cons.1 ha).resolve_right hm
        rw [hothers a (Ne.symm hfg) hm]
        simp [at_pc, Ne.symm hfg]
    · rw [h] at hag
      obtain ⟨hne, hm⟩ : a ≠ g ∧ a ∉ gs := by simpa [Pc.held] using hag
      rw [hothers a ha hm]
      simp [at_pc, ha, hne]

/-- **No call is stuck with waiters in its hands.** -/
theorem Inv.exists_finishes (h : Inv M s) (f : F) : ∃ s', Finishes M s f s' := by
  have hne : f ∉ (s.pc f).held := by
    intro hf
    obtain ⟨op, hw⟩ := h.waiting_of_held hf
    rw [hw] at hf
    cases hf
  cases hp : s.pc f with
  | handing g =>
    rw [hp] at hne
    have hfg : g ≠ f := fun he => hne (he ▸ List.mem_singleton_self _)
    refine ⟨_, .single (.hand hp), ?_, ?_, fun a ha => ?_, fun a ha hag => ?_⟩
    · simp [Pc.held]
    · simp [hp, Pc.held]
    · obtain rfl : a = g := by simpa [hp, Pc.held] using ha
      simp [at_pc, hfg]
    · have hne' : a ≠ g := by simpa [hp, Pc.held] using hag
      simp [at_pc, ha, hne']
  | waking gs =>
    rw [hp] at hne
    exact exists_finishes_waking hp hne
  | freeing gs =>
    rw [hp] at hne
    obtain ⟨s', h'⟩ := exists_finishes_waking (M := M)
      (s := { s.at f (.waking gs) with freed := true }) (at_pc_self _ _ _) hne
    have hheld : (({ s.at f (.waking gs) with freed := true } : State F Op O).pc f).held =
      gs := by simp [Pc.held]
    obtain ⟨hrun, hdone, hwakes, hresumed, hothers⟩ := h'
    rw [hheld] at hwakes hresumed hothers
    refine ⟨s', .head (.free hp) hrun, hdone, ?_, fun a ha => ?_, fun a ha hag => ?_⟩
    · rw [hwakes, hp]
      rfl
    · rw [hp] at ha
      exact hresumed a ha
    · rw [hp] at hag
      rw [hothers a ha hag]
      simp [at_pc, ha]
  | _ => exact ⟨s, finishes_of_empty (by rw [hp]; rfl)⟩

end

end Lib.Monitor
