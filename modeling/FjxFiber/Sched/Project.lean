import Mathlib.Logic.Function.Basic
import FjxFiber.Lib.MonitorSection
import FjxFiber.Sched.Uses

/-!
# The objects of the system are the objects of `Sync`

`Sync` says what mutexes and semaphores guarantee when callers come and go one section at a time; in
the system the callers are fibers, which run on work threads and are suspended and resumed by the
scheduler. `project`: what happens to one object in a run of the whole system is a run of that
object alone, with a caller's blocking, resumption and return where the scheduler makes them. So
whatever `Lib.Monitor` says of the object holds of it in the system.
-/

set_option autoImplicit false

namespace Sched

open Lib

/-! ## Kinds of objects -/

/-- How the objects that `Monitor.Spec` specifies occur in the system. -/
structure Kind (P O : Type) where
  spec : Monitor.Spec Fid P O
  obj : O → Object
  op : P → Op

structure Kind.Lawful {P O : Type} (K : Kind P O) : Prop where
  spec : K.spec.Lawful
  inj : Function.Injective K.op
  sec : ∀ a f x, (K.obj x).critical (K.op a) f =
    (K.obj (K.spec.sec a f x).1, .ofMonitor (K.spec.sec a f x).2)
  /-- Calls that the object does not have. -/
  other : ∀ op, (∀ a, K.op a ≠ op) → ∀ f x, (K.obj x).critical op f = (K.obj x, .ret)
  waiters : ∀ x, (K.obj x).waiters = K.spec.waiters x
  closes : ∀ a, K.spec.closes a = true ↔ K.op a = .destroy
  destroy : ∃ a, K.op a = .destroy
  entry : ∀ o a, (K.op a).entry o = .objectOp o (K.op a)

variable {P O : Type} {K : Kind P O} {x₀ : O} {o : Oid} {s s' : State} {f g : Fid} {t t' : Thr}
  {op : Op} {a : P}

/-! ## Runs in which the callers keep to the rules of the object -/

/-- The step in which `f` calls the operation. -/
def Calls (o : Oid) (f : Fid) (op : Op) (s s' : State) : Prop :=
  ∃ t rest, s.thr t = some ⟨.fiber f, .user :: rest⟩ ∧
    s'.thr t = some ⟨.fiber f, op.entry o :: .user :: rest⟩

/-- The step in which `f` runs the section of the operation. -/
def Enters (o : Oid) (f : Fid) (op : Op) (s s' : State) : Prop :=
  ∃ t, s.use o t = some (.enter (.fiber f) op) ∧ s'.use o t ≠ some (.enter (.fiber f) op)

/-- A state with the sections of `o` that have been run so far. -/
structure Logged (P : Type) where
  sched : State
  log : List (Fid × P)

/-- The object, after these sections. -/
def Kind.after (K : Kind P O) (x₀ : O) (l : List (Fid × P)) : O :=
  l.foldl (fun x e => (K.spec.sec e.2 e.1 x).1) x₀

theorem Kind.after_snoc (x₀ : O) (l : List (Fid × P)) (f : Fid) (a : P) :
    K.after x₀ (l ++ [(f, a)]) = (K.spec.sec a f (K.after x₀ l)).1 := by
  simp [Kind.after]

/-- A step in which the calls on `o` are those that its users may make, and no section is run once
the object has been destroyed. -/
structure Uses (K : Kind P O) (x₀ : O) (o : Oid) (u u' : Logged P) : Prop where
  step : Step u.sched u'.sched
  may : ∀ f a, Calls o f (K.op a) u.sched u'.sched → K.spec.may (K.after x₀ u.log) f a
  log : (∃ f a, Enters o f (K.op a) u.sched u'.sched ∧ u.sched.destroyed o = false ∧
      u'.log = u.log ++ [(f, a)]) ∨
    (∀ f a, ¬ Enters o f (K.op a) u.sched u'.sched) ∧ u'.log = u.log

/-- The states of the system in which `o` is such an object, used by its rules. -/
abbrev UsesReached (K : Kind P O) (x₀ : O) (o : Oid) : Logged P → Prop :=
  Reachable (fun u => (∃ obj, (∀ o, (obj o).Fresh) ∧ obj o = K.obj x₀ ∧ u.sched = .start obj) ∧
    u.log = []) (Uses K x₀ o)

theorem UsesReached.sched {u : Logged P} (h : UsesReached K x₀ o u) : Reached u.sched := by
  obtain ⟨u₀, ⟨⟨obj, ho, -, hs⟩, -⟩, hr⟩ := h
  induction hr with
  | refl => exact .start ⟨obj, ho, hs⟩
  | tail _ hu ih => exact ih.next hu.step

/-- No section of the object has been run. -/
theorem Uses.log_keep {u u' : Logged P} (hu : Uses K x₀ o u u')
    (h : ∀ t f a, u.sched.use o t = some (.enter (.fiber f) (K.op a)) →
      u'.sched.use o t = u.sched.use o t) : u'.log = u.log := by
  rcases hu.log with ⟨f, a, ⟨t, ht, hne⟩, -⟩ | ⟨-, hl⟩
  · exact absurd ((h t f a ht).trans ht) hne
  · exact hl

/-- A fiber that runs its own code is not linked in an object. -/
theorem Inv.user_not_waiting (hi : Inv s) {rest : List Frame}
    (ht : s.thr t = some ⟨.fiber f, .user :: rest⟩) : f ∉ (s.obj o).waiters := by
  intro hw
  have hp : f ∈ s.place (.inl t) := by
    simp [State.place, ht, tokens, execOf, Frame.publishes]
  have hw' : f ∈ s.place (.inr (.wait o)) := hw
  cases hi.fibers.place_unique hp hw'

/-! ## The object alone -/

/-- What the object alone shows of a state of the system. A fiber that has been taken from the
object is `runnable` until its next call on it. -/
structure Shows (K : Kind P O) (x₀ : O) (o : Oid) (u : Logged P) (m : Monitor.State Fid P O) :
    Prop where
  obj : u.sched.obj o = K.obj m.obj
  after : m.obj = K.after x₀ u.log
  secs : m.secs = u.log
  closing : m.closing = u.sched.destroyed o
  test : ∀ t c a, u.sched.use o t ≠ some (.test c (K.op a))
  enter : ∀ t f a, u.sched.use o t = some (.enter (.fiber f) (K.op a)) → m.pc f = .want a
  guard : m.lock ≠ none ↔ ∃ t, u.sched.use o t = some .guard
  pc : ∀ f, m.pc f = .idle ∨ m.pc f = .runnable ∨ f ∈ K.spec.waiters m.obj ∨
    ∃ t a, u.sched.use o t = some (.enter (.fiber f) (K.op a))

theorem Shows.start {obj : Oid → Object} {u : Logged P} (hobj : obj o = K.obj x₀)
    (hs : u.sched = .start obj) (hl : u.log = []) : Shows K x₀ o u (.start x₀) := by
  have huse : ∀ t, u.sched.use o t = none := by
    intro t
    rw [hs]
    rcases t with (_ | w) | _ <;> rfl
  refine ⟨?_, ?_, ?_, ?_, ?_, ?_, ?_, fun f => .inl rfl⟩
  · rw [hs]
    exact hobj
  · rw [hl]
    rfl
  · rw [hl]
    rfl
  · rw [hs]
    rfl
  · intro t c a h
    rw [huse] at h
    cases h
  · intro t f a h
    rw [huse] at h
    cases h
  · simp [huse, Monitor.State.start]

/-- A use of `o` that the object does not show. -/
structure Foreign (K : Kind P O) (x : Option Use) : Prop where
  guard : x ≠ some .guard
  enter : ∀ c a, x ≠ some (.enter c (K.op a))
  test : ∀ c a, x ≠ some (.test c (K.op a))

theorem Foreign.none : Foreign K none := ⟨nofun, nofun, nofun⟩

/-- An operation that the object does not have. -/
theorem Foreign.of_op {c : Ctx} {x : Option Use} (hop : ¬ ∃ a, K.op a = op)
    (hx : x = some (.enter c op) ∨ x = some (.test c op)) : Foreign K x := by
  rcases hx with rfl | rfl
  · refine ⟨nofun, fun c' a h => ?_, nofun⟩
    simp only [Option.some.injEq, Use.enter.injEq] at h
    exact hop ⟨a, h.2.symm⟩
  · refine ⟨nofun, nofun, fun c' a h => ?_⟩
    simp only [Option.some.injEq, Use.test.injEq] at h
    exact hop ⟨a, h.2.symm⟩

theorem entry_use (o : Oid) (op : Op) (c : Ctx) (rest : List Frame) :
    Running.use o ⟨c, op.entry o :: rest⟩ = some (.enter c op) ∨
      Running.use o ⟨c, op.entry o :: rest⟩ = some (.test c op) := by
  cases op <;> simp [Running.use, Frame.use, Op.entry]

namespace Shows

variable {u u' : Logged P} {m m' : Monitor.State Fid P O}

/-- A fiber that runs its own code has no call on the object in progress. -/
theorem idle (hi : Inv u.sched) (hK : K.Lawful) (h : Shows K x₀ o u m) {rest : List Frame}
    (ht : u.sched.thr t = some ⟨.fiber f, .user :: rest⟩) :
    m.pc f = .idle ∨ m.pc f = .runnable := by
  rcases h.pc f with hf | hf | hf | ⟨t', a, hu⟩
  · exact .inl hf
  · exact .inr hf
  · rw [← hK.waiters, ← h.obj] at hf
    exact absurd hf (hi.user_not_waiting ht)
  · obtain ⟨rest', ht'⟩ := State.use_enter hu
    obtain rfl := hi.contexts.sole t t' _ _ _ ht ht'
    rw [ht] at ht'
    cases ht'

/-- Nobody has the object's lock beside the thread that is in a section of it. -/
theorem unlocked (hi : Inv u.sched) (h : Shows K x₀ o u m) {c : Ctx}
    (hu : u.sched.use o t = some (.enter c op)) (hl : u.sched.lock (.object o) = some t) :
    m.lock = none := by
  by_contra hne
  obtain ⟨t', hu'⟩ := h.guard.1 hne
  obtain ⟨c', fr, rest, ht', hg⟩ := State.use_guard hu'
  have hl' := hi.locks.held _ _ _ _ o ht' hg
  rw [hl] at hl'
  obtain rfl := Option.some.inj hl'
  rw [hu] at hu'
  cases hu'

/-- Nothing that the object shows has changed. -/
theorem keep (h : Shows K x₀ o u m) (hobj : u'.sched.obj o = u.sched.obj o)
    (hd : u'.sched.destroyed o = u.sched.destroyed o) (hl : u'.log = u.log)
    (hother : ∀ t', t' ≠ t → u'.sched.use o t' = u.sched.use o t')
    (hold : Foreign K (u.sched.use o t)) (hnew : Foreign K (u'.sched.use o t)) :
    Shows K x₀ o u' m where
  obj := hobj.trans h.obj
  after := by rw [hl, h.after]
  secs := by rw [hl, h.secs]
  closing := by rw [hd, h.closing]
  test t' c a := by
    by_cases he : t' = t
    · rw [he]
      exact hnew.test c a
    · rw [hother t' he]
      exact h.test t' c a
  enter t' f a hu := by
    by_cases he : t' = t
    · rw [he] at hu
      exact absurd hu (hnew.enter _ a)
    · rw [hother t' he] at hu
      exact h.enter t' f a hu
  guard := by
    rw [h.guard]
    refine exists_congr fun t' => ?_
    by_cases he : t' = t
    · rw [he]
      exact iff_of_false hold.guard hnew.guard
    · rw [hother t' he]
  pc f := by
    rcases h.pc f with hf | hf | hf | ⟨t', a, hf⟩
    · exact .inl hf
    · exact .inr (.inl hf)
    · exact .inr (.inr (.inl hf))
    · refine .inr (.inr (.inr ⟨t', a, ?_⟩))
      by_cases he : t' = t
      · rw [he] at hf
        exact absurd hf (hold.enter _ a)
      · rw [hother t' he, hf]

/-- A call. -/
theorem call (hi : Inv u.sched) (hK : K.Lawful) (h : Shows K x₀ o u m) (hu : Uses K x₀ o u u')
    {rest : List Frame} (ht : u.sched.thr t = some ⟨.fiber f, .user :: rest⟩)
    (hopen : u.sched.destroyed o = false)
    (hthr : u'.sched.thr =
      Function.update u.sched.thr t (some ⟨.fiber f, op.entry o :: .user :: rest⟩))
    (hobj : u'.sched.obj o = u.sched.obj o) (hd : u'.sched.destroyed o = u.sched.destroyed o) :
    ∃ m', Relation.ReflTransGen (Monitor.Step K.spec) m m' ∧ Shows K x₀ o u' m' := by
  have hnone : u.sched.use o t = none := State.use_eq ht
  have hother : ∀ t', t' ≠ t → u'.sched.use o t' = u.sched.use o t' :=
    fun t' he => State.use_other hthr he
  have hlog : u'.log = u.log := by
    refine hu.log_keep fun t' f' a hu' => hother t' ?_
    rintro rfl
    rw [hnone] at hu'
    cases hu'
  by_cases hop : ∃ a, K.op a = op
  · obtain ⟨a, rfl⟩ := hop
    have huse : u'.sched.use o t = some (.enter (.fiber f) (K.op a)) := by
      rw [State.use_self hthr, hK.entry]
      simp [Running.use, Frame.use]
    have hmay : K.spec.may m.obj f a := by
      rw [h.after]
      refine hu.may f a ⟨t, rest, ht, ?_⟩
      rw [hthr, Function.update_self]
    have hclosing : m.closing = false := h.closing.trans hopen
    obtain ⟨m', hrun, hobj', hsecs, hclosing', hlock, hself, hpc⟩ : ∃ m',
        Relation.ReflTransGen (Monitor.Step K.spec) m m' ∧ m'.obj = m.obj ∧ m'.secs = m.secs ∧
        m'.closing = m.closing ∧ m'.lock = m.lock ∧ m'.pc f = .want a ∧
        ∀ g, g ≠ f → m'.pc g = m.pc g := by
      rcases h.idle hi hK ht with hf | hf
      · refine ⟨_, .single (.call f a hf hclosing hmay), rfl, rfl, rfl, rfl,
          Monitor.at_pc_self .., fun g hg => ?_⟩
        simp [Monitor.at_pc, hg]
      · have hres := Relation.ReflTransGen.single (Monitor.Step.resume (M := K.spec) hf)
        refine ⟨_, hres.tail (.call f a (Monitor.at_pc_self ..) hclosing hmay), rfl, rfl, rfl, rfl,
          Monitor.at_pc_self .., fun g hg => ?_⟩
        simp [Monitor.at_pc, hg]
    -- no other thread executes the caller
    have hsole : ∀ t' g a', t' ≠ t →
        u'.sched.use o t' = some (.enter (.fiber g) (K.op a')) → g ≠ f := by
      intro t' g a' hne hu' he
      subst he
      rw [hother t' hne] at hu'
      obtain ⟨rest', ht'⟩ := State.use_enter hu'
      exact hne (hi.contexts.sole _ _ _ _ _ ht' ht)
    refine ⟨m', hrun, ⟨?_, ?_, ?_, ?_, ?_, ?_, ?_, ?_⟩⟩
    · rw [hobj, hobj', h.obj]
    · rw [hobj', h.after, hlog]
    · rw [hsecs, h.secs, hlog]
    · rw [hclosing', h.closing, hd]
    · intro t' c a' hu'
      by_cases he : t' = t
      · rw [he, huse] at hu'
        cases hu'
      · rw [hother t' he] at hu'
        exact h.test t' c a' hu'
    · intro t' g a' hu'
      by_cases he : t' = t
      · rw [he, huse] at hu'
        simp only [Option.some.injEq, Use.enter.injEq, Ctx.fiber.injEq] at hu'
        rw [← hu'.1, hself, hK.inj hu'.2]
      · rw [hpc g (hsole t' g a' he hu')]
        exact h.enter t' g a' (hother t' he ▸ hu')
    · rw [hlock, h.guard]
      constructor
      · rintro ⟨t', hg⟩
        refine ⟨t', ?_⟩
        rw [hother t' ?_, hg]
        rintro rfl
        rw [hnone] at hg
        cases hg
      · rintro ⟨t', hg⟩
        refine ⟨t', ?_⟩
        rw [← hother t' ?_, hg]
        rintro rfl
        rw [huse] at hg
        cases hg
    · intro g
      by_cases he : g = f
      · subst he
        exact .inr (.inr (.inr ⟨t, a, huse⟩))
      · rw [hpc g he, hobj']
        rcases h.pc g with hg | hg | hg | ⟨t', a', hg⟩
        · exact .inl hg
        · exact .inr (.inl hg)
        · exact .inr (.inr (.inl hg))
        · refine .inr (.inr (.inr ⟨t', a', ?_⟩))
          rw [hother t' ?_, hg]
          rintro rfl
          rw [hnone] at hg
          cases hg
  · refine ⟨m, .refl, h.keep hobj hd hlog hother ?_ (.of_op (c := .fiber f) hop ?_)⟩
    · rw [hnone]
      exact .none
    · rw [State.use_self hthr]
      exact entry_use o op _ _

/-- The test without the lock, which no operation of the object makes. -/
theorem tested (h : Shows K x₀ o u m) (hi : Inv u.sched) (hu : Uses K x₀ o u u') {c : Ctx}
    {rest F : List Frame} (ht : u.sched.thr t = some ⟨c, .channelTest o op :: rest⟩)
    (hthr : u'.sched.thr = Function.update u.sched.thr t (some ⟨c, F⟩))
    (hF : F = rest ∨ F = .objectOp o op :: rest) (hobj : u'.sched.obj o = u.sched.obj o)
    (hd : u'.sched.destroyed o = u.sched.destroyed o) : Shows K x₀ o u' m := by
  have huse : u.sched.use o t = some (.test c op) := by
    rw [State.use_eq ht]
    simp [Running.use, Frame.use]
  have hop : ¬ ∃ a, K.op a = op := by
    rintro ⟨a, rfl⟩
    exact h.test t c a huse
  have hother : ∀ t', t' ≠ t → u'.sched.use o t' = u.sched.use o t' :=
    fun t' he => State.use_other hthr he
  have hold : Foreign K (u.sched.use o t) := .of_op hop (.inr huse)
  refine h.keep hobj hd (hu.log_keep fun t' f' a hu' => hother t' ?_) hother hold ?_
  · rintro rfl
    exact hold.enter _ a hu'
  · rw [State.use_self hthr]
    rcases hF with rfl | rfl
    · rw [use_rest (hi.contexts.shape_of ht) rfl]
      exact .none
    · refine .of_op (c := c) hop (.inl ?_)
      simp [Running.use, Frame.use]

/-- The deferred release. -/
theorem unlock (hi : Inv u.sched) (hm : Monitor.Inv K.spec m) (h : Shows K x₀ o u m)
    (hu : Uses K x₀ o u u') {c : Ctx} {rest : List Frame}
    (ht : u.sched.thr t = some ⟨c, .unlock o :: rest⟩)
    (hthr : u'.sched.thr = Function.update u.sched.thr t (some ⟨c, rest⟩))
    (hobj : u'.sched.obj o = u.sched.obj o) (hd : u'.sched.destroyed o = u.sched.destroyed o) :
    ∃ m', Monitor.Step K.spec m m' ∧ Shows K x₀ o u' m' := by
  have huse : u.sched.use o t = some .guard := by
    rw [State.use_eq ht]
    simp [Running.use, Frame.use, Frame.guards]
  have hother : ∀ t', t' ≠ t → u'.sched.use o t' = u.sched.use o t' :=
    fun t' he => State.use_other hthr he
  have hnone : u'.sched.use o t = none := by
    rw [State.use_self hthr, use_rest (hi.contexts.shape_of ht) rfl]
  have hlog : u'.log = u.log := by
    refine hu.log_keep fun t' f' a hu' => hother t' ?_
    rintro rfl
    rw [huse] at hu'
    cases hu'
  obtain ⟨f, hf⟩ := Option.ne_none_iff_exists'.1 (h.guard.2 ⟨t, huse⟩)
  -- who has the lock is suspending itself, for its section is over
  have hlocked := (hm.lock f).1 hf
  obtain ⟨op, hpc⟩ : ∃ op, m.pc f = .publishing op := by
    rcases h.pc f with hp | hp | hp | ⟨t', a, hp⟩
    · simp [hp, Monitor.Pc.locked] at hlocked
    · simp [hp, Monitor.Pc.locked] at hlocked
    · have hp' : f ∈ Monitor.places K.spec m none := hp
      have hb : (m.pc f).blocked = true := hm.placed.live_of_mem hp'
      cases hq : m.pc f with
      | publishing op => exact ⟨op, rfl⟩
      | _ => simp_all [Monitor.Pc.locked, Monitor.Pc.blocked]
    · simp [h.enter t' f a hp, Monitor.Pc.locked] at hlocked
  refine ⟨_, .publish f op hpc, ⟨?_, ?_, ?_, ?_, ?_, ?_, ?_, ?_⟩⟩
  · rw [hobj, h.obj]
    rfl
  · rw [hlog, ← h.after]
    rfl
  · rw [hlog, ← h.secs]
    rfl
  · rw [hd, ← h.closing]
    rfl
  · intro t' c' a hu'
    by_cases he : t' = t
    · rw [he, hnone] at hu'
      cases hu'
    · exact h.test t' c' a (hother t' he ▸ hu')
  · intro t' g a hu'
    by_cases he : t' = t
    · rw [he, hnone] at hu'
      cases hu'
    · have hg := h.enter t' g a (hother t' he ▸ hu')
      have hne : g ≠ f := by
        rintro rfl
        rw [hpc] at hg
        cases hg
      simp [Monitor.at_pc, hne, hg]
  · refine iff_of_false (fun hn => hn rfl) ?_
    rintro ⟨t', hu'⟩
    by_cases he : t' = t
    · rw [he, hnone] at hu'
      cases hu'
    · rw [hother t' he] at hu'
      obtain ⟨c', fr, rest', ht', hg⟩ := State.use_guard hu'
      have hl' := hi.locks.held _ _ _ _ o ht' hg
      rw [hi.locks.held _ _ _ _ o ht rfl] at hl'
      exact he (Option.some.inj hl').symm
  · intro g
    by_cases he : g = f
    · subst he
      exact .inr (.inr (.inl (hm.publishing g op hpc)))
    · simp only [Monitor.at_pc, if_neg he, Monitor.at_obj]
      rcases h.pc g with hg | hg | hg | ⟨t', a, hg⟩
      · exact .inl hg
      · exact .inr (.inl hg)
      · exact .inr (.inr (.inl hg))
      · refine .inr (.inr (.inr ⟨t', a, ?_⟩))
        rw [hother t' ?_, hg]
        rintro rfl
        rw [huse] at hg
        cases hg

/-- A section of an operation that the object does not have. -/
theorem foreign (h : Shows K x₀ o u m) (hK : K.Lawful) (hi : Inv u.sched) (hu : Uses K x₀ o u u')
    {rest : List Frame} (ht : u.sched.thr t = some ⟨.fiber f, .objectOp o op :: rest⟩)
    (hop : ¬ ∃ a, K.op a = op)
    (hthr : u'.sched.thr = Function.update u.sched.thr t
      (some ⟨.fiber f, ((u.sched.obj o).critical op f).2.next o f rest⟩))
    (hobj : u'.sched.obj o = ((u.sched.obj o).critical op f).1)
    (hd : u'.sched.destroyed o = if op = .destroy then true else u.sched.destroyed o) :
    Shows K x₀ o u' m := by
  have huse : u.sched.use o t = some (.enter (.fiber f) op) := by
    rw [State.use_eq ht]
    simp [Running.use, Frame.use]
  have hother : ∀ t', t' ≠ t → u'.sched.use o t' = u.sched.use o t' :=
    fun t' he => State.use_other hthr he
  have hold : Foreign K (u.sched.use o t) := .of_op hop (.inl huse)
  have hcrit : (u.sched.obj o).critical op f = (u.sched.obj o, .ret) := by
    rw [h.obj]
    exact hK.other op (fun a he => hop ⟨a, he⟩) f m.obj
  have hne : op ≠ .destroy := by
    rintro rfl
    exact hop hK.destroy
  rw [hcrit] at hthr hobj
  rw [if_neg hne] at hd
  refine h.keep hobj hd (hu.log_keep fun t' f' a hu' => hother t' ?_) hother hold ?_
  · rintro rfl
    exact hold.enter _ a hu'
  · rw [State.use_self hthr]
    rw [show Outcome.ret.next o f rest = rest from rfl, use_rest (hi.contexts.shape_of ht) rfl]
    exact .none

/-- A section. -/
theorem enters (hi : Inv u.sched) (hm : Monitor.Inv K.spec m) (hK : K.Lawful)
    (h : Shows K x₀ o u m) (hu : Uses K x₀ o u u') {rest : List Frame}
    (ht : u.sched.thr t = some ⟨.fiber f, .objectOp o (K.op a) :: rest⟩)
    (hl : u.sched.lock (.object o) = some t)
    (hthr : u'.sched.thr = Function.update u.sched.thr t
      (some ⟨.fiber f, ((u.sched.obj o).critical (K.op a) f).2.next o f rest⟩))
    (hobj : u'.sched.obj o = ((u.sched.obj o).critical (K.op a) f).1)
    (hd : u'.sched.destroyed o = if K.op a = .destroy then true else u.sched.destroyed o) :
    ∃ m', Relation.ReflTransGen (Monitor.Step K.spec) m m' ∧ Shows K x₀ o u' m' := by
  have huse : u.sched.use o t = some (.enter (.fiber f) (K.op a)) := by
    rw [State.use_eq ht]
    simp [Running.use, Frame.use]
  have hother : ∀ t', t' ≠ t → u'.sched.use o t' = u.sched.use o t' :=
    fun t' he => State.use_other hthr he
  have hcrit : (u.sched.obj o).critical (K.op a) f =
      (K.obj (K.spec.sec a f m.obj).1, .ofMonitor (K.spec.sec a f m.obj).2) := by
    rw [h.obj]
    exact hK.sec a f m.obj
  rw [hcrit] at hthr hobj
  have hnew : u'.sched.use o t =
      if (K.spec.sec a f m.obj).2.blocks then some .guard else none := by
    rw [State.use_self hthr]
    have hrest := use_rest (o := o) (hi.contexts.shape_of ht) rfl
    cases (K.spec.sec a f m.obj).2 with
    | ret => exact hrest
    | block =>
      simp [Outcome.ofMonitor, Outcome.next, Running.use, Frame.use, Frame.guards,
        Frame.publishes, Monitor.Outcome.blocks]
    | wake g | drain gs => rfl
  have hnot : ∀ c b,
      u'.sched.use o t ≠ some (.enter c b) ∧ u'.sched.use o t ≠ some (.test c b) := by
    intro c b
    rw [hnew]
    split <;> simp
  obtain ⟨hopen, hlog⟩ : u.sched.destroyed o = false ∧ u'.log = u.log ++ [(f, a)] := by
    rcases hu.log with ⟨g, b, ⟨t', ht', hne⟩, hopen, hlog⟩ | ⟨hno, -⟩
    · obtain rfl : t' = t := by
        by_contra he
        exact hne ((hother t' he).trans ht')
      rw [huse] at ht'
      simp only [Option.some.injEq, Use.enter.injEq, Ctx.fiber.injEq] at ht'
      obtain ⟨rfl, hb⟩ := ht'
      rw [hK.inj hb]
      exact ⟨hopen, hlog⟩
    · exact absurd ⟨t, huse, (hnot _ _).1⟩ (hno f a)
  obtain ⟨m', hm'⟩ := Monitor.Ran.of_want (M := K.spec) (h.enter t f a huse)
    (h.unlocked hi huse hl) (h.closing.trans hopen)
  have hsole : ∀ t' g b, t' ≠ t →
      u.sched.use o t' = some (.enter (.fiber g) (K.op b)) → g ≠ f := by
    intro t' g b hne hu' he
    subst he
    obtain ⟨rest', ht'⟩ := State.use_enter hu'
    exact hne (hi.contexts.sole _ _ _ _ _ ht' ht)
  refine ⟨m', hm'.run, ⟨?_, ?_, ?_, ?_, ?_, ?_, ?_, ?_⟩⟩
  · rw [hobj, hm'.obj]
  · rw [hm'.obj, hlog, Kind.after_snoc, h.after]
  · rw [hm'.secs, hlog, h.secs]
  · rw [hm'.closing, hd, hopen]
    by_cases hc : K.op a = .destroy
    · rw [if_pos hc]
      exact (hK.closes a).2 hc
    · rw [if_neg hc]
      exact Bool.eq_false_iff.2 fun h => hc ((hK.closes a).1 h)
  · intro t' c b hu'
    by_cases he : t' = t
    · rw [he] at hu'
      exact (hnot c _).2 hu'
    · exact h.test t' c b (hother t' he ▸ hu')
  · intro t' g b hu'
    by_cases he : t' = t
    · rw [he] at hu'
      exact absurd hu' (hnot _ _).1
    · rw [hother t' he] at hu'
      have hg := h.enter t' g b hu'
      rw [hm'.other g (hsole t' g b he hu'), if_neg ?_, hg]
      intro htaken
      have hw : g ∈ Monitor.places K.spec m none := hK.spec.taken htaken
      have hb : (m.pc g).blocked = true := hm.placed.live_of_mem hw
      rw [hg] at hb
      cases hb
  · rw [hm'.lock]
    constructor
    · intro hne
      refine ⟨t, ?_⟩
      rw [hnew]
      by_cases hb : (K.spec.sec a f m.obj).2.blocks = true
      · rw [if_pos hb]
      · rw [if_neg hb] at hne
        exact absurd rfl hne
    · rintro ⟨t', hg⟩
      obtain rfl : t' = t := by
        by_contra he
        rw [hother t' he] at hg
        obtain ⟨c', fr, rest', ht', hg'⟩ := State.use_guard hg
        have hl' := hi.locks.held _ _ _ _ o ht' hg'
        rw [hl] at hl'
        exact he (Option.some.inj hl').symm
      rw [hnew] at hg
      by_cases hb : (K.spec.sec a f m.obj).2.blocks = true
      · rw [if_pos hb]
        simp
      · rw [if_neg hb] at hg
        cases hg
  · intro g
    by_cases he : g = f
    · subst he
      rw [hm'.self]
      cases hout : (K.spec.sec a g m.obj).2 with
      | block =>
        refine .inr (.inr (.inl ?_))
        rw [hm'.obj, (hK.spec.block a g m.obj hout).1]
        exact List.mem_append_right _ (List.mem_singleton_self g)
      | _ => exact .inl rfl
    · rw [hm'.other g he, hm'.obj]
      by_cases htaken : g ∈ (K.spec.sec a f m.obj).2.taken
      · rw [if_pos htaken]
        exact .inr (.inl rfl)
      rw [if_neg htaken]
      rcases h.pc g with hg | hg | hg | ⟨t', b, hg⟩
      · exact .inl hg
      · exact .inr (.inl hg)
      · exact .inr (.inr (.inl ((hK.spec.stays hg).resolve_left htaken)))
      · refine .inr (.inr (.inr ⟨t', b, ?_⟩))
        rw [hother t' ?_, hg]
        rintro rfl
        rw [huse] at hg
        simp only [Option.some.injEq, Use.enter.injEq, Ctx.fiber.injEq] at hg
        exact he hg.1.symm

/-- **Every step of the system is one of the object**, or none. -/
theorem step (hi : Inv u.sched) (hm : Monitor.Inv K.spec m) (hK : K.Lawful)
    (h : Shows K x₀ o u m) (hu : Uses K x₀ o u u') :
    ∃ m', Relation.ReflTransGen (Monitor.Step K.spec) m m' ∧ Shows K x₀ o u' m' := by
  cases hu.step.seen hi o with
  | same huse hobj hd =>
    have hlog : u'.log = u.log := hu.log_keep fun t f a _ => congrFun huse t
    refine ⟨m, .refl, ⟨hobj.trans h.obj, hlog ▸ h.after, hlog ▸ h.secs, hd ▸ h.closing, ?_, ?_, ?_,
      ?_⟩⟩ <;> rw [huse]
    exacts [h.test, h.enter, h.guard, h.pc]
  | call ht hopen hthr hobj hd => exact h.call hi hK hu ht hopen hthr hobj hd
  | tested ht hthr hF hobj hd => exact ⟨m, .refl, h.tested hi hu ht hthr hF hobj hd⟩
  | @entered t f op rest ht hl hthr hobj hd =>
    by_cases hop : ∃ a, K.op a = op
    · obtain ⟨a, rfl⟩ := hop
      exact h.enters hi hm hK hu ht hl hthr hobj hd
    · exact ⟨m, .refl, h.foreign hK hi hu ht hop hthr hobj hd⟩
  | unlock ht hthr hobj hd =>
    obtain ⟨m', hs, h'⟩ := h.unlock hi hm hu ht hthr hobj hd
    exact ⟨m', .single hs, h'⟩

end Shows

/-- **Projection.** A run of the system in which `o` is used by its rules is, seen from `o`, a run
of the object alone. -/
theorem UsesReached.project (hK : K.Lawful) (hw : K.spec.waiters x₀ = []) {u : Logged P}
    (h : UsesReached K x₀ o u) : ∃ m, Monitor.Reach K.spec x₀ m ∧ Shows K x₀ o u m := by
  refine Reachable.invariant_from (I := fun u => Inv u.sched)
    (J := fun u => ∃ m, Monitor.Reach K.spec x₀ m ∧ Shows K x₀ o u m) ?_ ?_ ?_ h
  · intro u hu
    exact (UsesReached.sched hu).inv
  · rintro u ⟨⟨obj, -, hobj, hs⟩, hl⟩
    exact ⟨_, .start rfl, .start hobj hs hl⟩
  · rintro u u' hi ⟨m, hm, hshow⟩ hu
    obtain ⟨m', hr, hshow'⟩ := hshow.step hi (Monitor.Reach.inv hK.spec hw hm) hK hu
    exact ⟨m', hm.run hr, hshow'⟩

/-! ## Steps by the rules -/

namespace UsesReached

variable {l : List (Fid × P)} {rest : List Frame}

/-- A step in which the uses of `o` stay as they are, or the lock is released. -/
theorem unused (h : UsesReached K x₀ o ⟨s, l⟩) (hs : Step s s')
    (huse : ∀ t, s'.use o t = s.use o t ∨ s.use o t = some .guard) :
    UsesReached K x₀ o ⟨s', l⟩ := by
  refine h.next ⟨hs, ?_, .inr ⟨?_, rfl⟩⟩
  · rintro f a ⟨t, rest, ht, hcall⟩
    have hnone : s.use o t = none := State.use_eq ht
    rcases huse t with hkeep | hguard
    · have hcalled := (State.use_eq hcall).symm.trans (hkeep.trans hnone)
      rcases entry_use o (K.op a) (.fiber f) (.user :: rest) with hu | hu <;>
        · rw [hu] at hcalled
          cases hcalled
    · rw [hnone] at hguard
      cases hguard
  · rintro f a ⟨t, hu, hne⟩
    rcases huse t with hkeep | hguard
    · exact hne (hkeep.trans hu)
    · rw [show s.use o t = _ from hu] at hguard
      cases hguard

/-- A step in which no thread goes on. -/
theorem still (h : UsesReached K x₀ o ⟨s, l⟩) (hs : Step s s') (hthr : s'.thr = s.thr) :
    UsesReached K x₀ o ⟨s', l⟩ := by
  apply h.unused hs
  intro t
  unfold State.use
  rw [hthr]
  exact .inl rfl

/-- A step of a thread beside `o`, or its deferred release. -/
theorem beside {r : Running} (h : UsesReached K x₀ o ⟨s, l⟩) (hs : Step s s')
    (hthr : s'.thr = Function.update s.thr t (some r))
    (hr : r.use o = s.use o t ∨ s.use o t = some .guard) : UsesReached K x₀ o ⟨s', l⟩ := by
  apply h.unused hs
  intro t'
  by_cases he : t' = t
  · rw [he, State.use_self hthr]
    exact hr
  · exact .inl (State.use_other hthr he)

/-- A call that the object's users may make. -/
theorem call (hK : K.Lawful) (h : UsesReached K x₀ o ⟨s, l⟩)
    (ht : s.thr t = some ⟨.fiber f, .user :: rest⟩) (hopen : s.destroyed o = false)
    (hmay : K.spec.may (K.after x₀ l) f a) :
    UsesReached K x₀ o ⟨s.run t (.fiber f) (.objectOp o (K.op a) :: .user :: rest), l⟩ := by
  have hstep := Step.quiet ht (.object o (K.op a) hopen)
  rw [hK.entry] at hstep
  have hself : (s.run t (.fiber f) (.objectOp o (K.op a) :: .user :: rest)).thr t =
      some ⟨.fiber f, .objectOp o (K.op a) :: .user :: rest⟩ := Function.update_self _ _ _
  refine h.next ⟨hstep, ?_, .inr ⟨?_, rfl⟩⟩
  · rintro g b ⟨t', rest', ht', hcall⟩
    by_cases he : t' = t
    · subst he
      rw [show s.thr t' = _ from ht] at ht'
      rw [hK.entry, show State.thr _ t' = _ from hself] at hcall
      cases ht'
      simp only [Option.some.injEq, Running.mk.injEq, List.cons.injEq, Frame.objectOp.injEq,
        true_and, and_true] at hcall
      rw [← hK.inj hcall]
      exact hmay
    · rw [show State.thr _ t' = s.thr t' from Function.update_of_ne he _ _,
        show s.thr t' = _ from ht'] at hcall
      exact absurd (congrArg Running.frames (Option.some.inj hcall)) (frames_ne _ _)
  · rintro g b ⟨t', hu, hne⟩
    by_cases he : t' = t
    · rw [he, State.use_eq ht] at hu
      cases hu
    · exact hne ((State.use_other rfl he).trans hu)

/-- A section, of an object that has not been destroyed. -/
theorem enter (h : UsesReached K x₀ o ⟨s, l⟩) (hs : Step s s')
    (ht : s.thr t = some ⟨.fiber f, .objectOp o (K.op a) :: rest⟩)
    (hthr : s'.thr = Function.update s.thr t
      (some ⟨.fiber f, ((s.obj o).critical (K.op a) f).2.next o f rest⟩))
    (hopen : s.destroyed o = false) : UsesReached K x₀ o ⟨s', l ++ [(f, a)]⟩ := by
  have hi := h.sched.inv
  have huse : s.use o t = some (.enter (.fiber f) (K.op a)) := by
    rw [State.use_eq ht]
    simp [Running.use, Frame.use]
  refine h.next ⟨hs, ?_, .inl ⟨f, a, ⟨t, huse, ?_⟩, hopen, rfl⟩⟩
  · rintro g b ⟨t', rest', ht', hcall⟩
    by_cases he : t' = t
    · rw [he, show s.thr t = _ from ht] at ht'
      cases ht'
    · rw [show s'.thr t' = s.thr t' by rw [hthr, Function.update_of_ne he],
        show s.thr t' = _ from ht'] at hcall
      exact absurd (congrArg Running.frames (Option.some.inj hcall)) (frames_ne _ _)
  · rw [State.use_self hthr]
    have hrest := use_rest (o := o) (hi.contexts.shape_of ht) rfl
    cases ((s.obj o).critical (K.op a) f).2 with
    | ret =>
      rw [show Outcome.ret.next o f rest = rest from rfl, hrest]
      simp
    | block | wake | transfer | drain =>
      simp [Outcome.next, Running.use, Frame.use, Frame.guards, Frame.publishes]

/-! ### Two fibers, on two threads -/

variable {x : Object} {out : Outcome}

/-- The main fiber has spawned a fiber, and a second thread executes it. -/
theorem spawned (K : Kind P O) (x₀ : O) (o : Oid) (obj : Oid → Object) (hobj : ∀ o, (obj o).Fresh)
    (ho : obj o = K.obj x₀) :
    ∃ s, UsesReached K x₀ o ⟨s, []⟩ ∧ s.thr (.work 0) = some ⟨.fiber 0, [.user]⟩ ∧
      s.thr (.work 1) = some ⟨.fiber 1, [.user]⟩ ∧ (∀ L, s.lock L = none) ∧ s.obj = obj ∧
      s.destroyed o = false ∧ s.threadFiber 1 = some ⟨.loop 1, 1⟩ ∧
      s.susp (.loop 1) = [.loopTop] ∧ s.fiberList = [] ∧ s.idleThreadList = [] := by
  have h0 : UsesReached K x₀ o ⟨.start obj, []⟩ := .start ⟨⟨_, hobj, ho, rfl⟩, rfl⟩
  have h1 := h0.beside (.quiet (t := .work 0) rfl .spawn) rfl (.inl rfl)
    |>.still (.acquire (t := .work 0) .disposed rfl rfl rfl) rfl
    |>.beside (.spawnEmpty (t := .work 0) rfl rfl rfl) rfl (.inl rfl)
    |>.beside (.spawnNew (t := .work 0) 1 rfl rfl) rfl (.inl rfl)
    |>.still (.acquire (t := .work 0) .queue rfl rfl rfl) rfl
    |>.beside (.enqueueTail (t := .work 0) rfl rfl rfl) rfl (.inl rfl)
  have h2 := h1.beside (.start 1 rfl) rfl (.inl rfl)
    |>.still (.acquire (t := .work 1) .queue rfl rfl rfl) rfl
    |>.beside (.loopPop (t := .work 1) rfl rfl rfl) rfl (.inl rfl)
    |>.beside (.loopCopy (t := .work 1) rfl) rfl (.inl rfl)
    |>.beside (.loopSwitch (t := .work 1) rfl rfl) rfl (.inl rfl)
  refine ⟨_, h2, rfl, rfl, fun L => ?_, rfl, rfl, rfl, rfl, rfl, rfl⟩
  cases L <;> rfl

/-- A call, to the end of its section. -/
theorem calls (hK : K.Lawful) (h : UsesReached K x₀ o ⟨s, l⟩)
    (ht : s.thr t = some ⟨.fiber f, [.user]⟩) (hl : s.lock (.object o) = none)
    (hd : s.destroyed o = false) (hmay : K.spec.may (K.after x₀ l) f a)
    (hop : K.op a ≠ .destroy) (hout : (s.obj o).critical (K.op a) f = (x, out)) :
    UsesReached K x₀ o ⟨{ s.run t (.fiber f) (out.next o f [.user]) with
      obj := Function.update s.obj o x
      lock := Function.update s.lock (.object o) (if out.holds then some t else none) },
      l ++ [(f, a)]⟩ := by
  have hself : ∀ {h : Thr → Option Running} {r}, Function.update h t r t = r :=
    Function.update_self _ _ _
  have h1 := h.call hK ht hd hmay
  have h2 := h1.still (.acquire (.object o) hself rfl hl) rfl
  have h3 := h2.enter (.object hself (Function.update_self _ _ _)) hself rfl hd
  convert h3 using 2
  simp only [State.run, hout, hop, if_false, Function.update_idem]
  cases out.holds <;> rfl

/-- The deferred release. -/
theorem released {c : Ctx} {rest : List Frame} (h : UsesReached K x₀ o ⟨s, l⟩)
    (ht : s.thr t = some ⟨c, .unlock o :: rest⟩) :
    UsesReached K x₀ o ⟨(s.run t c rest).release (.object o), l⟩ := by
  apply h.beside (.unlock ht) rfl
  rw [State.use_eq ht]
  simp [Running.use, Frame.use, Frame.guards]

/-- The fiber 1 has blocked, and its thread goes back to its loop. -/
theorem parks (h : UsesReached K x₀ 0 ⟨s, l⟩)
    (ht : s.thr (.work 1) = some ⟨.fiber 1, [.copy none (.unlock 0), .user]⟩)
    (htf : s.threadFiber 1 = some ⟨.loop 1, 1⟩) (hloop : s.susp (.loop 1) = [.loopTop]) :
    ∃ s', UsesReached K x₀ 0 ⟨s', l⟩ ∧ s'.thr (.work 1) = some ⟨.loop 1, [.loopTop]⟩ ∧
      s'.thr (.work 0) = s.thr (.work 0) ∧ s'.lock (.object 0) = none ∧
      s'.lock .queue = s.lock .queue ∧ s'.obj = s.obj ∧ s'.destroyed = s.destroyed ∧
      s'.desc 1 = some ⟨.fiber 1, 1⟩ ∧ s'.susp (.fiber 1) = [.user] ∧
      s'.fiberList = s.fiberList ∧ s'.idleThreadList = s.idleThreadList := by
  have h1 := h.beside (.copyThread (w := 1) ht) rfl (.inr (State.use_eq ht))
    |>.beside (.push (t := .work 1) rfl htf) rfl (.inr rfl)
    |>.beside (.switch (t := .work 1) rfl rfl) rfl (.inr rfl)
  have hback : some (Running.mk (.loop 1) (cut 2 (.unlock 0 :: cut 1 (s.susp (.loop 1))))) =
      some ⟨.loop 1, [.unlock 0, .loopTop]⟩ := by
    rw [hloop]
    rfl
  have h2 := h1.released (t := .work 1) hback
  exact ⟨_, h2, rfl, rfl, rfl, rfl, rfl, rfl, rfl, rfl, rfl, rfl⟩

/-- The main fiber enqueues the fiber 1, and the second thread takes it from its loop. -/
theorem resumes (h : UsesReached K x₀ 0 ⟨s, l⟩)
    (ht : s.thr (.work 0) = some ⟨.fiber 0, [.enqueue 1, .user]⟩)
    (ht₁ : s.thr (.work 1) = some ⟨.loop 1, [.loopTop]⟩) (hl : s.lock .queue = none)
    (hdesc : s.desc 1 = some ⟨.fiber 1, 1⟩) (hsusp : s.susp (.fiber 1) = [.user])
    (hq : s.fiberList = []) (hi : s.idleThreadList = []) :
    ∃ s', UsesReached K x₀ 0 ⟨s', l⟩ ∧ s'.thr (.work 0) = some ⟨.fiber 0, [.user]⟩ ∧
      s'.thr (.work 1) = some ⟨.fiber 1, [.user]⟩ ∧ s'.destroyed = s.destroyed := by
  have h1 := h.still (.acquire (t := .work 0) .queue ht rfl hl) rfl
    |>.beside (.enqueueTail (t := .work 0) ht rfl hi) rfl (.inl (State.use_eq ht).symm)
    |>.still (.acquire (t := .work 1) .queue ht₁ rfl rfl) rfl
  have hpop : s.fiberList ++ [1] = [1] := by rw [hq, List.nil_append]
  have hcut : cut 1 (s.susp (.fiber 1)) = [.user] := by
    rw [hsusp]
    rfl
  have huse : Running.use 0 ⟨.fiber 1, cut 1 (s.susp (.fiber 1))⟩ = none := by
    rw [hcut]
    rfl
  have h2 := h1.beside (.loopPop (t := .work 1) ht₁ rfl hpop) rfl (.inl (State.use_eq ht₁).symm)
    |>.beside (.loopCopy (t := .work 1) rfl) rfl (.inl rfl)
    |>.beside (.loopSwitch (t := .work 1) rfl hdesc) rfl (.inl huse)
  refine ⟨_, h2, rfl, ?_, rfl⟩
  show some (Running.mk _ (cut 1 (s.susp (.fiber 1)))) = _
  rw [hcut]

end UsesReached

end Sched
