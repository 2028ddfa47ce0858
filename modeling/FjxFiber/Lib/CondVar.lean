import FjxFiber.Lib.Calls

/-!
# A monitor with one condition variable

The operations `α` of an object take a mutex, do something (`enter`), wait on the condition
variable while their `guard` is true, do the rest (`leave`), notify nobody, one waiter or all of
them, and release the mutex. A wait may also end without a notification.

`Step` interleaves any number of threads; what is done between two accesses to the mutex is one
step. `phase_step` and `counts_step` say where the threads are and how many calls there were,
`entered_step` what happens to the guarded state and to those who wait, and `owned_step` who holds
the mutex. Where a guard becomes false only through an operation that broadcasts, nobody waits
whose guard is false (`awaited_step`). An operation may behave so only from some states, such as
those in which a counter has room: `Allowed` are the steps that it takes from these.
-/

set_option autoImplicit false

namespace Lib.CondVar

inductive Notify
  | none
  | one
  | all

structure Spec (σ α : Type*) where
  enter : α → σ → σ
  /-- The operation waits while it is true. -/
  guard : α → σ → Bool
  leave : α → σ → σ
  /-- Whom the operation notifies, from the state it leaves. -/
  notify : α → σ → Notify

/-- What a thread is about to do. -/
inductive Pc (α : Type*)
  | out
  | lock (a : α)
  | test (a : α)
  /-- In the wait, without the mutex. -/
  | blocked (a : α)
  /-- About to take the mutex again. -/
  | woken (a : α)
  | notify (a : α) (n : Notify)
  | unlock (a : α)
  | done (a : α)

namespace Pc

variable {α : Type*}

def phase : Pc α → Phase α
  | out => .out
  | lock a | test a | blocked a | woken a => .before a
  | notify a _ | unlock a | done a => .after a

/-- A broadcast wakes those that wait. -/
def wake : Pc α → Pc α
  | blocked a => woken a
  | p => p

@[simp] theorem wake_phase (p : Pc α) : p.wake.phase = p.phase := by cases p <;> rfl

end Pc

structure State (ι σ α : Type*) where
  mem : σ
  mtx : Option ι
  pc : ι → Pc α
  counts : Counts α

variable {ι σ α : Type*} [DecidableEq ι] [DecidableEq α]

def State.goto (s : State ι σ α) (t : ι) (p : Pc α) : State ι σ α :=
  { s with pc := Function.update s.pc t p }

def State.start (m : σ) : State ι σ α := ⟨m, none, fun _ => .out, .zero⟩

inductive Step (P : Spec σ α) : State ι σ α → Act ι α → State ι σ α → Prop
  | call {s t} (a : α) (ht : s.pc t = .out) :
      Step P s (.call t a) { s.goto t (.lock a) with counts := s.counts.call a }
  | acquire {s t a} (ht : s.pc t = .lock a) (hm : s.mtx = none) :
      Step P s .silent { s.goto t (.test a) with mtx := some t, mem := P.enter a s.mem }
  | block {s t a} (ht : s.pc t = .test a) (hg : P.guard a s.mem = true) :
      Step P s .silent { s.goto t (.blocked a) with mtx := none }
  /-- A wait ends without a notification. -/
  | spurious {s t a} (ht : s.pc t = .blocked a) : Step P s .silent (s.goto t (.woken a))
  | reacquire {s t a} (ht : s.pc t = .woken a) (hm : s.mtx = none) :
      Step P s .silent { s.goto t (.test a) with mtx := some t }
  | pass {s t a} (ht : s.pc t = .test a) (hg : P.guard a s.mem = false) :
      Step P s (.pass t a) { s.goto t (.notify a (P.notify a (P.leave a s.mem))) with
        mem := P.leave a s.mem, counts := s.counts.pass a }
  | notifyNone {s t a} (ht : s.pc t = .notify a .none) : Step P s .silent (s.goto t (.unlock a))
  | notifyNobody {s t a} (ht : s.pc t = .notify a .one) (hn : ∀ u b, s.pc u ≠ .blocked b) :
      Step P s .silent (s.goto t (.unlock a))
  | notifyOne {s t a u b} (ht : s.pc t = .notify a .one) (hu : s.pc u = .blocked b) :
      Step P s .silent ((s.goto u (.woken b)).goto t (.unlock a))
  | notifyAll {s t a} (ht : s.pc t = .notify a .all) :
      Step P s .silent { s with pc := Function.update (fun u => (s.pc u).wake) t (.unlock a) }
  | unlock {s t a} (ht : s.pc t = .unlock a) :
      Step P s .silent { s.goto t (.done a) with mtx := none }
  | ret {s t a} (ht : s.pc t = .done a) :
      Step P s (.ret t a) { s.goto t .out with counts := s.counts.ret a }

variable {P : Spec σ α} {s s' : State ι σ α} {act : Act ι α} {t : ι}

/-! ## Where the threads are -/

def State.phase (s : State ι σ α) (t : ι) : Phase α := (s.pc t).phase

omit [DecidableEq α] in
theorem State.phase_update {p : Pc α} (hpc : s'.pc = Function.update s.pc t p) :
    s'.phase = Function.update s.phase t p.phase := by
  funext u
  unfold State.phase
  rw [hpc]
  by_cases hu : u = t <;> simp [hu]

omit [DecidableEq α] in
theorem State.phase_same {p : Pc α} (hpc : s'.pc = Function.update s.pc t p)
    (hp : (s.pc t).phase = p.phase) : s'.phase = s.phase := by
  rw [State.phase_update hpc, ← hp]
  exact Function.update_eq_self _ _

omit [DecidableEq ι] [DecidableEq α] in
theorem State.phase_wake : (fun u => ((s.pc u).wake).phase) = s.phase := by
  funext u
  exact Pc.wake_phase _

/-- Where the threads are changes as the step says. -/
theorem phase_step (hs : Step P s act s') :
    s'.phase = act.phase s.phase ∧ act.Fits s.phase := by
  have hphase : ∀ {t : ι} {p q : Pc α}, s.pc t = p → p.phase = q.phase →
      (s.pc t).phase = q.phase := by
    intro t p q ht hp
    rw [ht, hp]
  cases hs with
  | call a ht => exact ⟨State.phase_update (p := .lock a) rfl, hphase (q := .out) ht rfl⟩
  | pass ht hg => exact ⟨State.phase_update (p := .notify _ _) rfl, hphase (q := .test _) ht rfl⟩
  | ret ht => exact ⟨State.phase_update (p := .out) rfl, hphase (q := .done _) ht rfl⟩
  | acquire ht | block ht | reacquire ht | unlock ht | spurious ht | notifyNone ht
  | notifyNobody ht => exact ⟨State.phase_same rfl (hphase ht rfl), trivial⟩
  | @notifyOne t a u b ht hu =>
    have hp : (s.goto u (.woken b)).phase = s.phase := State.phase_same rfl (hphase hu rfl)
    have ht' : ((s.goto u (.woken b)).pc t).phase = (Pc.unlock a).phase :=
      (congrFun hp t).trans (hphase ht rfl)
    exact ⟨(State.phase_same (s := s.goto u (.woken b)) rfl ht').trans hp, trivial⟩
  | @notifyAll t a ht =>
    have hp : ((s.pc t).wake).phase = (Pc.unlock a).phase := by
      rw [Pc.wake_phase]
      exact hphase ht rfl
    refine ⟨?_, trivial⟩
    rw [State.phase_same (s := { s with pc := fun u => (s.pc u).wake }) rfl hp]
    exact State.phase_wake

theorem counts_step (hs : Step P s act s') : s'.counts = s.counts.act act := by
  cases hs <;> rfl

theorem tallied_step (h : Tallied s.phase s.counts) (hs : Step P s act s') :
    Tallied s'.phase s'.counts := by
  obtain ⟨hp, hf⟩ := phase_step hs
  rw [hp, counts_step hs]
  exact h.act hf

/-- An operation enters only in the states `E` allows, and leaves only in those `L` allows. -/
structure Allowed (E L : α → σ → Prop) (s : State ι σ α) (act : Act ι α) (s' : State ι σ α) :
    Prop where
  enter : ∀ t a, s.pc t = .lock a → s'.pc t = .test a → E a s.mem
  leave : ∀ t a, act = .pass t a → L a s.mem

theorem pass_step {a : α} (hs : Step P s (.pass t a) s') :
    P.guard a s.mem = false ∧ s'.mem = P.leave a s.mem := by
  cases hs with
  | pass ht hg => exact ⟨hg, rfl⟩

/-! ## Who holds the mutex -/

/-- In a section. -/
def Pc.Inside : Pc α → Prop
  | test _ | notify _ _ | unlock _ => True
  | _ => False

/-- Whoever is in a section holds the mutex. -/
def Owned (s : State ι σ α) : Prop := ∀ t, (s.pc t).Inside → s.mtx = some t

omit [DecidableEq α] in
theorem Owned.update {p p' : Pc α} (h : Owned s) (ht : s.pc t = p)
    (hpc : s'.pc = Function.update s.pc t p') (hin : p'.Inside → s'.mtx = some t)
    (hm : s'.mtx = s.mtx ∨ s.mtx = none ∨ p.Inside) : Owned s' := by
  intro u hu
  rw [hpc] at hu
  by_cases hut : u = t
  · subst hut
    rw [Function.update_self] at hu
    exact hin hu
  · rw [Function.update_of_ne hut] at hu
    have hmu := h u hu
    rcases hm with hm | hm | hm
    · rw [hm]
      exact hmu
    · rw [hm] at hmu
      cases hmu
    · -- two threads in a section
      rw [h t (by rw [ht]; exact hm)] at hmu
      exact absurd (Option.some.inj hmu).symm hut

theorem owned_step (h : Owned s) (hs : Step P s act s') : Owned s' := by
  cases hs with
  | call a ht | spurious ht | ret ht => exact h.update ht rfl (fun hp => hp.elim) (.inl rfl)
  | acquire ht hm | reacquire ht hm => exact h.update ht rfl (fun _ => rfl) (.inr (.inl hm))
  | block ht | unlock ht => exact h.update ht rfl (fun hp => hp.elim) (.inr (.inr trivial))
  | pass ht | notifyNone ht | notifyNobody ht =>
    exact h.update ht rfl (fun _ => h _ (by rw [ht]; exact trivial)) (.inl rfl)
  | @notifyOne t a u b ht hu =>
    have hut : t ≠ u := by
      intro he
      rw [he, hu] at ht
      cases ht
    have h' : Owned (s.goto u (.woken b)) := h.update hu rfl (fun hp => hp.elim) (.inl rfl)
    exact h'.update (p := .notify a .one) ((Function.update_of_ne hut _ _).trans ht) rfl
      (fun _ => h t (by rw [ht]; exact trivial)) (.inl rfl)
  | @notifyAll t a ht =>
    have h' : Owned { s with pc := fun u => (s.pc u).wake } := by
      intro u hu
      apply h u
      have hw : ((s.pc u).wake).Inside := hu
      cases hp : s.pc u <;> rw [hp] at hw <;> exact hw
    exact h'.update (p := (s.pc t).wake) rfl rfl (fun _ => h t (by rw [ht]; exact trivial))
      (.inl rfl)

/-! ## Who waits -/

/-- The operation has entered, and has not had its effect. -/
def Pc.Entered (a : α) (p : Pc α) : Prop := p = .test a ∨ p = .blocked a ∨ p = .woken a

def State.entered (s : State ι σ α) (a : α) : Set ι := {t | (s.pc t).Entered a}

omit [DecidableEq α] in
theorem State.entered_update {p p' : Pc α} {a : α} (ht : s.pc t = p)
    (hpc : s'.pc = Function.update s.pc t p') (hp : p'.Entered a ↔ p.Entered a) :
    s'.entered a = s.entered a := by
  ext u
  show (s'.pc u).Entered a ↔ (s.pc u).Entered a
  rw [hpc]
  by_cases hu : u = t
  · subst hu
    rw [Function.update_self, ht]
    exact hp
  · rw [Function.update_of_ne hu]

omit [DecidableEq α] in
theorem State.entered_same {p p' : Pc α} (ht : s.pc t = p)
    (hpc : s'.pc = Function.update s.pc t p') (hp : ∀ a, p'.Entered a ↔ p.Entered a) :
    s'.entered = s.entered := by
  funext a
  exact State.entered_update ht hpc (hp a)

omit [DecidableEq ι] [DecidableEq α] in
theorem State.entered_wake : State.entered { s with pc := fun u => (s.pc u).wake } = s.entered := by
  funext a
  ext u
  show (s.pc u).wake.Entered a ↔ (s.pc u).Entered a
  cases s.pc u <;> simp [Pc.wake, Pc.Entered]

/-- **What a step does to the guarded state and to those who wait**: nothing, or an operation
enters, or one that has entered has its effect. -/
theorem entered_step (hs : Step P s act s') :
    (s'.mem = s.mem ∧ (∀ t a, act ≠ .pass t a) ∧ s'.entered = s.entered) ∨
    (∃ t a, act = .silent ∧ (s.pc t = .lock a ∧ s'.pc t = .test a) ∧ s'.mem = P.enter a s.mem ∧
      t ∉ s.entered a ∧ s'.entered = Function.update s.entered a (insert t (s.entered a))) ∨
    ∃ t a, act = .pass t a ∧ P.guard a s.mem = false ∧ s'.mem = P.leave a s.mem ∧
      t ∈ s.entered a ∧ s'.entered = Function.update s.entered a (s.entered a \ {t}) := by
  cases hs with
  | call a ht | block ht | spurious ht | reacquire ht | notifyNone ht | notifyNobody ht
  | unlock ht | ret ht =>
    refine .inl ⟨rfl, by simp, State.entered_same ht rfl ?_⟩
    intro b
    simp [Pc.Entered]
  | @notifyOne t a u b ht hu =>
    have hut : t ≠ u := by
      intro he
      rw [he, hu] at ht
      cases ht
    have h' : (s.goto u (.woken b)).entered = s.entered := by
      apply State.entered_same hu rfl
      intro c
      simp [Pc.Entered]
    refine .inl ⟨rfl, by simp, ?_⟩
    rw [← h']
    apply State.entered_same ((Function.update_of_ne hut _ _).trans ht) rfl
    intro c
    simp [Pc.Entered]
  | @notifyAll t a ht =>
    refine .inl ⟨rfl, by simp, ?_⟩
    rw [← State.entered_wake (s := s)]
    apply State.entered_same (s := { s with pc := fun u => (s.pc u).wake })
      (congrArg Pc.wake ht) rfl
    intro c
    simp [Pc.Entered, Pc.wake]
  | @acquire t a ht hm =>
    refine .inr (.inl ⟨t, a, rfl, ⟨ht, Function.update_self _ _ _⟩, rfl, ?_, ?_⟩)
    · simp [State.entered, Pc.Entered, ht]
    · funext b
      by_cases hb : b = a
      · subst hb
        rw [Function.update_self]
        ext u
        by_cases hu : u = t <;> simp [State.entered, State.goto, Pc.Entered, hu]
      · rw [Function.update_of_ne hb]
        apply State.entered_update ht rfl
        simp [Pc.Entered, Ne.symm hb]
  | @pass t a ht hg =>
    refine .inr (.inr ⟨t, a, rfl, hg, rfl, ?_, ?_⟩)
    · simp [State.entered, Pc.Entered, ht]
    · funext b
      by_cases hb : b = a
      · subst hb
        rw [Function.update_self]
        ext u
        by_cases hu : u = t <;> simp [State.entered, State.goto, Pc.Entered, hu]
      · rw [Function.update_of_ne hb]
        apply State.entered_update ht rfl
        simp [Pc.Entered, Ne.symm hb]

/-! ## No wakeup is lost -/

/-- A guard becomes false only through an operation that broadcasts. -/
structure Spec.Broadcasts (P : Spec σ α) (E L : α → σ → Prop) : Prop where
  enter : ∀ a b m, E b m → P.guard a m = true → P.guard a (P.enter b m) = true
  leave : ∀ a b m, L b m → P.guard b m = false → P.guard a m = true →
    P.guard a (P.leave b m) = true ∨ P.notify b (P.leave b m) = .all

/-- A broadcast is about to come. -/
def State.Announced (s : State ι σ α) : Prop := ∃ u b, s.pc u = .notify b .all

/-- Whoever waits, and has not been notified, has a true guard, or is about to be notified. -/
def Awaited (P : Spec σ α) (s : State ι σ α) : Prop :=
  ∀ t a, s.pc t = .blocked a → P.guard a s.mem = true ∨ s.Announced

omit [DecidableEq α] in
theorem State.Announced.update {p p' : Pc α} (h : s.Announced) (ht : s.pc t = p)
    (hpc : s'.pc = Function.update s.pc t p') (hp : ∀ b, p ≠ .notify b .all) : s'.Announced := by
  obtain ⟨u, b, hu⟩ := h
  have hut : u ≠ t := by
    intro he
    rw [he, ht] at hu
    exact hp b hu
  exact ⟨u, b, by rw [hpc, Function.update_of_ne hut, hu]⟩

omit [DecidableEq α] in
/-- A thread goes on that was about to broadcast nothing, and does not start to wait in vain. -/
theorem Awaited.update {p p' : Pc α} (h : Awaited P s) (ht : s.pc t = p)
    (hpc : s'.pc = Function.update s.pc t p') (hp : ∀ b, p ≠ .notify b .all)
    (hself : ∀ a, p' = .blocked a → P.guard a s'.mem = true)
    (hmem : ∀ a, P.guard a s.mem = true → P.guard a s'.mem = true ∨ s'.Announced) :
    Awaited P s' := by
  intro u a hu
  rw [hpc] at hu
  by_cases hut : u = t
  · subst hut
    rw [Function.update_self] at hu
    exact .inl (hself a hu)
  · rw [Function.update_of_ne hut] at hu
    rcases h u a hu with hg | ha
    · exact hmem a hg
    · exact .inr (ha.update ht hpc hp)

/-- **No wakeup is lost.** -/
theorem awaited_step {E L : α → σ → Prop} (hP : P.Broadcasts E L) (h : Awaited P s)
    (hs : Step P s act s') (ha : Allowed E L s act s') : Awaited P s' := by
  cases hs with
  | call a ht | spurious ht | reacquire ht | notifyNone ht | notifyNobody ht | unlock ht
  | ret ht => exact h.update ht rfl (by simp) (by simp) (fun a hg => .inl hg)
  | @block t a ht hg =>
    refine h.update ht rfl (by simp) ?_ (fun a hg => .inl hg)
    intro b hb
    rw [← Pc.blocked.inj hb]
    exact hg
  | @acquire t b ht =>
    have hE := ha.enter t b ht (Function.update_self _ _ _)
    exact h.update ht rfl (by simp) (by simp) (fun a hg => .inl (hP.enter a b _ hE hg))
  | @pass t b ht hg =>
    have hL := ha.leave t b rfl
    refine h.update ht rfl (by simp) (by simp) ?_
    intro a ha
    rcases hP.leave a b _ hL hg ha with hk | hn
    · exact .inl hk
    · refine .inr ⟨t, b, ?_⟩
      rw [← hn]
      exact Function.update_self _ _ _
  | @notifyOne t a u b ht hu =>
    have hut : t ≠ u := by
      intro he
      rw [he, hu] at ht
      cases ht
    have h' : Awaited P (s.goto u (.woken b)) :=
      h.update hu rfl (by simp) (by simp) (fun a hg => .inl hg)
    exact h'.update ((Function.update_of_ne hut _ _).trans ht) rfl (by simp) (by simp)
      (fun a hg => .inl hg)
  | @notifyAll t a ht =>
    -- nobody waits any more
    intro u b hu
    have hw : Function.update (fun u => (s.pc u).wake) t (.unlock a) u = .blocked b := hu
    by_cases hut : u = t
    · subst hut
      rw [Function.update_self] at hw
      cases hw
    · rw [Function.update_of_ne hut] at hw
      cases hp : s.pc u <;> rw [hp] at hw <;> cases hw

end Lib.CondVar
