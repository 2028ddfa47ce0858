import FjxFiber.Lib.MonitorProof

/-!
# A critical section in one go

`Ran`: a caller takes the lock, runs its section, and hands on what it took from the object, with
nothing in between. A system in which the sections of an object are single steps is simulated by
such runs and by `Step.publish` (`Ran.of_want`).
-/

set_option autoImplicit false

namespace Lib.Monitor

variable {F Op O : Type*} [DecidableEq F] {M : Spec F Op O} {s : State F Op O} {f : F} {op : Op}

/-- The caller suspends itself. -/
def Outcome.blocks : Outcome F → Bool
  | block => true
  | _ => false

omit [DecidableEq F] in
/-- Who is taken was a waiter. -/
theorem Spec.Lawful.taken (hM : M.Lawful) {o : O} {g : F} (hg : g ∈ (M.sec op f o).2.taken) :
    g ∈ M.waiters o := by
  cases hout : (M.sec op f o).2 with
  | ret | block =>
    rw [hout] at hg
    cases hg
  | wake g₀ =>
    rw [hout, Outcome.taken, List.mem_singleton] at hg
    rw [hM.wake op f o g₀ hout, hg]
    exact List.mem_cons_self
  | drain gs =>
    rw [hout] at hg
    rw [hM.drain op f o gs hout]
    exact List.mem_append_left _ hg

omit [DecidableEq F] in
/-- A waiter stays one until it is taken. -/
theorem Spec.Lawful.stays (hM : M.Lawful) {o : O} {g : F} (hg : g ∈ M.waiters o) :
    g ∈ (M.sec op f o).2.taken ∨ g ∈ M.waiters (M.sec op f o).1 := by
  cases hout : (M.sec op f o).2 with
  | ret => exact .inr (by rwa [hM.ret op f o hout])
  | block =>
    rw [(hM.block op f o hout).1]
    exact .inr (List.mem_append_left _ hg)
  | wake g₀ =>
    rw [hM.wake op f o g₀ hout, List.mem_cons] at hg
    exact hg.imp_left fun h => by simp [Outcome.taken, h]
  | drain gs =>
    rw [hM.drain op f o gs hout, List.mem_append] at hg
    exact hg

/-- `f` has run its section of `op`, and whoever it took from the object is runnable. -/
structure Ran (M : Spec F Op O) (f : F) (op : Op) (s s' : State F Op O) : Prop where
  run : Relation.ReflTransGen (Step M) s s'
  obj : s'.obj = (M.sec op f s.obj).1
  secs : s'.secs = s.secs ++ [(f, op)]
  closing : s'.closing = M.closes op
  lock : s'.lock = if (M.sec op f s.obj).2.blocks then some f else none
  self : s'.pc f = if (M.sec op f s.obj).2.blocks then .publishing op else .idle
  other : ∀ g, g ≠ f →
    s'.pc g = if g ∈ (M.sec op f s.obj).2.taken then .runnable else s.pc g

/-- The caller resumes the waiters in its hands. -/
theorem waking_run {gs : List F} (h : s.pc f = .waking gs) :
    ∃ s', Relation.ReflTransGen (Step M) s s' ∧ s'.obj = s.obj ∧ s'.secs = s.secs ∧
      s'.closing = s.closing ∧ s'.lock = s.lock ∧ s'.pc f = .idle ∧
      ∀ g, g ≠ f → s'.pc g = if g ∈ gs then .runnable else s.pc g := by
  induction gs generalizing s with
  | nil =>
    refine ⟨_, .single (.woken h), rfl, rfl, rfl, rfl, at_pc_self .., fun g hg => ?_⟩
    simp [at_pc, hg]
  | cons g₀ gs ih =>
    have hstep := Step.wake (M := M) h
    obtain ⟨s', hr, hobj, hsecs, hclosing, hlock, hf, hother⟩ :=
      ih (s := { (s.at g₀ .runnable).at f (.waking gs) with wakeLog := s.wakeLog ++ [g₀] })
        (at_pc_self (s.at g₀ .runnable) f _)
    refine ⟨s', .head hstep hr, hobj, hsecs, hclosing, hlock, hf, fun g hg => ?_⟩
    rw [hother g hg]
    simp only [at_pc, if_neg hg, List.mem_cons]
    by_cases he : g = g₀ <;> simp [he]

theorem after_lock {r : O × Outcome F} :
    (s.after f op r).lock = if r.2.blocks then s.lock else none := by
  unfold State.after
  split <;> simp [*, Outcome.blocks]

/-- **A section in one go.** -/
theorem Ran.of_want (hpc : s.pc f = .want op) (hlock : s.lock = none) (hopen : s.closing = false) :
    ∃ s', Ran M f op s s' := by
  obtain ⟨s₁, h₁, hobj₁, hsecs₁, hclosing₁, hlock₁, hf₁, hother₁⟩ : ∃ s₁, Step M s s₁ ∧
      s₁.obj = s.obj ∧ s₁.secs = s.secs ∧ s₁.closing = M.closes op ∧ s₁.lock = some f ∧
      s₁.pc f = .inside op ∧ ∀ g, g ≠ f → s₁.pc g = s.pc g :=
    ⟨_, .acquire f op hpc hlock hopen, rfl, rfl, rfl, rfl, at_pc_self .., fun g hg => by
      simp [at_pc, hg]⟩
  have hcrit := Step.critical (M := M) f op hf₁
  rw [hobj₁] at hcrit
  have hrun := (Relation.ReflTransGen.single h₁).tail hcrit
  -- after the section, before what it took is handed on
  have hobj : (s₁.after f op (M.sec op f s.obj)).obj = _ := after_obj
  have hsecs : (s₁.after f op (M.sec op f s.obj)).secs = _ := after_secs
  have hclosing : (s₁.after f op (M.sec op f s.obj)).closing = _ := after_closing
  have hlock : (s₁.after f op (M.sec op f s.obj)).lock = _ := after_lock
  have hself : (s₁.after f op (M.sec op f s.obj)).pc f = _ := after_pc_self
  have hother : ∀ g, g ≠ f → (s₁.after f op (M.sec op f s.obj)).pc g = s.pc g :=
    fun g hg => (after_pc_ne hg).trans (hother₁ g hg)
  rw [hsecs₁] at hsecs
  rw [hclosing₁] at hclosing
  rw [hlock₁] at hlock
  generalize s₁.after f op (M.sec op f s.obj) = s₂ at hrun hobj hsecs hclosing hlock hself hother
  cases hout : (M.sec op f s.obj).2 with
  | ret | block =>
    rw [hout] at hself
    refine ⟨s₂, hrun, hobj, hsecs, hclosing, hlock, ?_, fun g hg => ?_⟩
    · simp [hself, hout, Outcome.blocks]
    · simp [hother g hg, hout, Outcome.taken]
  | wake g₀ =>
    rw [hout] at hself
    refine ⟨_, hrun.tail (.hand hself), hobj, hsecs, hclosing, hlock, ?_, fun g hg => ?_⟩
    · simp [hout, Outcome.blocks]
    · simp only [at_pc, if_neg hg, hother g hg, hout, Outcome.taken, List.mem_singleton]
  | drain gs =>
    rw [hout] at hself
    obtain ⟨s', hr, hobj', hsecs', hclosing', hlock', hf', hother'⟩ :=
      waking_run (M := M) (s := { s₂.at f (.waking gs) with freed := true }) (at_pc_self s₂ f _)
    refine ⟨s', (hrun.tail (.free hself)).trans hr, hobj'.trans hobj, hsecs'.trans hsecs,
      hclosing'.trans hclosing, hlock'.trans hlock, ?_, fun g hg => ?_⟩
    · simp [hf', hout, Outcome.blocks]
    · rw [hother' g hg]
      simp only [at_pc, if_neg hg, hother g hg, hout, Outcome.taken]

end Lib.Monitor
