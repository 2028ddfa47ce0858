import FjxFiber.Demo.DiningPhilosopherEnd
import FjxFiber.Demo.DiningPhilosopherRun
import Mathlib.Algebra.BigOperators.Fin
import Mathlib.Algebra.Order.BigOperators.Group.Finset

/-!
# There are always more meals to come (`demo/dining-philosopher.c`)

Every step takes a philosopher on in its lap, from one meal to the next, or `main` or `g` on to its
return, or a call to its own (`Step.spent`). Since some philosopher can move until `main` returns,
the laps go on until then, and nothing is assumed of the scheduler: `dining_philosophers`.
-/

set_option autoImplicit false

namespace Demo.DiningPhilosopher

open Lib Lib.Monitor Sync

/-! ## Laps -/

def Test.start : Test → Nat
  | putLeft => 2
  | putRight => 9
  | take => 20

/-- How far a philosopher has come since its last meal. -/
def Pc.lap : Pc → Nat
  | eating => 0
  | putting => 1
  | test w => w.start
  | testLeft w => w.start + 1
  | testRight w => w.start + 2
  | eat w => w.start + 3
  | signal w => w.start + 4
  | signalling w => w.start + 5
  | tested w => w.start + 6
  | unlocking w => w.start + 7
  | sleeping => 17
  | think => 18
  | taking => 19
  | wait => 28
  | waiting => 29

theorem Pc.lap_le (p : Pc) : p.lap ≤ 29 := by
  cases p with
  | test w | testLeft w | testRight w | eat w | signal w | signalling w | tested w | unlocking w =>
    cases w <;> decide
  | _ => decide

/-- How far philosopher `i` and its calls have come. -/
def State.spentBy (s : State) (i : Ph) : Nat :=
  6 * (30 * s.meals i + (s.pc i).lap) + (s.m.pc i).rank + ∑ k, ((s.s k).pc i).rank

def EnderPc.rank : EnderPc → Nat
  | spawning n => min n 5
  | wait => 6
  | waiting => 7
  | returned => 8
  | sleeping => 0
  | signal => 1
  | signalling => 2
  | done => 3

theorem EnderPc.rank_le (p : EnderPc) : p.rank ≤ 8 := by
  cases p with
  | spawning n => exact Nat.le_trans (Nat.min_le_right n 5) (by decide)
  | _ => decide

/-- How far `main` or `g` and its call have come. -/
def State.endedBy (s : State) (e : Ender) : Nat := 6 * (s.ender e).rank + (s.syncS.pc e).rank

def State.spent (s : State) : Nat := ∑ i, s.spentBy i + (s.endedBy .main + s.endedBy .g)

variable {s s' : State} {i j k : Ph} {p p' : Pc} {a : Act} {state : Ph → PhState} {back : Prop}
  {backFrom : Ph → Prop}

/-- **A piece of code takes its philosopher on**, to the next meal in the end. -/
theorem Exec.lap (h : Exec state back backFrom i p a p') :
    p.lap < p'.lap ∧ p' ≠ .eating ∨ p = .waiting ∧ p' = .eating := by
  cases h with
  | fed h => exact .inr ⟨rfl, rfl⟩
  | test w => left; split <;> exact ⟨by simp [Pc.lap], by simp⟩
  | testLeft w => left; split <;> exact ⟨by simp [Pc.lap], by simp⟩
  | testRight w => left; split <;> exact ⟨by simp [Pc.lap], by simp⟩
  | unlockedPut w hw h =>
    refine .inl ⟨?_, by simp⟩
    cases w with
    | take => exact absurd rfl hw
    | putLeft => decide
    | putRight => decide
  | _ => exact .inl ⟨by simp [Pc.lap, Test.start], by simp⟩

theorem EnderExec.rank {e : Ender} {q q' : EnderPc} {c : Option SemaphoreOp}
    (h : EnderExec back e q c q') : q.rank < q'.rank := by
  cases h with
  | spawn n hn =>
    show min n 5 < min (n + 1) 5
    omega
  | spawnG n hn => exact Nat.lt_of_le_of_lt (Nat.min_le_right n 5) (by decide)
  | _ => decide

/-! ## The measure -/

theorem spent_lt (i : Ph) (hi : s.spentBy i < s'.spentBy i) (h : ∀ j, s.spentBy j ≤ s'.spentBy j)
    (he : ∀ e, s'.endedBy e = s.endedBy e) : s.spent < s'.spent := by
  unfold State.spent
  rw [he, he]
  exact Nat.add_lt_add_right
    (Finset.sum_lt_sum (fun j _ => h j) ⟨i, Finset.mem_univ i, hi⟩) _

theorem ended_lt (e : Ender) (he : s.endedBy e < s'.endedBy e)
    (h : ∀ e, s.endedBy e ≤ s'.endedBy e) (hi : ∀ i, s'.spentBy i = s.spentBy i) :
    s.spent < s'.spent := by
  unfold State.spent
  rw [Finset.sum_congr rfl fun i _ => hi i]
  apply Nat.add_lt_add_left
  cases e with
  | main => exact Nat.add_lt_add_of_lt_of_le he (h .g)
  | g => exact Nat.add_lt_add_of_le_of_lt (h .main) he

theorem sum_call (k' : Ph) : ∑ k, (if k = k' then 1 else 6) = 25 := by
  revert k'
  decide

section
variable (hx : Exec s.state (s.m.pc i = .idle) (fun k => (s.s k).pc i = .idle) i (s.pc i) a p')
include hx

theorem Exec.spentBy_other (hj : j ≠ i) : ((s.perform i a).goto i p').spentBy j = s.spentBy j := by
  have hpc : ((s.perform i a).goto i p').pc j = s.pc j := by
    cases a <;> exact Function.update_of_ne hj _ _
  have hmeals : ((s.perform i a).goto i p').meals j = s.meals j := by
    have he : ((s.perform i a).goto i p').meals =
        if p' = .eating then Function.update s.meals i (s.meals i + 1) else s.meals := by
      cases a <;> rfl
    rw [he]
    split
    · exact Function.update_of_ne hj _ _
    · rfl
  have hm : ((s.perform i a).goto i p').m.pc j = s.m.pc j := by
    cases a with
    | mutex op => exact Function.update_of_ne hj _ _
    | _ => rfl
  have hs : ∀ k, (((s.perform i a).goto i p').s k).pc j = (s.s k).pc j := by
    intro k
    cases a with
    | semaphore k' op =>
      show (Function.update s.s k' _ k).pc j = _
      by_cases hk : k = k'
      · subst hk
        rw [Function.update_self]
        exact Function.update_of_ne hj _ _
      · rw [Function.update_of_ne hk]
    | _ => rfl
  unfold State.spentBy
  simp only [hpc, hmeals, hm, hs]

/-- A piece of code makes one call at most. -/
theorem Coupled.spentBy_exec (h : Coupled s) :
    s.spentBy i < ((s.perform i a).goto i p').spentBy i := by
  obtain ⟨hm, hs⟩ := h.exec_idle hx
  have hpc : ((s.perform i a).goto i p').pc i = p' := by
    cases a <;> exact Function.update_self ..
  have hlap : 30 * s.meals i + (s.pc i).lap <
      30 * ((s.perform i a).goto i p').meals i + p'.lap := by
    have he : ((s.perform i a).goto i p').meals =
        if p' = .eating then Function.update s.meals i (s.meals i + 1) else s.meals := by
      cases a <;> rfl
    rw [he]
    rcases hx.lap with ⟨hlt, hne⟩ | ⟨hp, rfl⟩
    · rw [if_neg hne]
      omega
    · rw [if_pos rfl, Function.update_self, hp]
      simp only [Pc.lap]
      omega
  have hidle : (s.m.pc i).rank + ∑ k, ((s.s k).pc i).rank = 36 := by
    simp [hm, hs, Monitor.Pc.rank]
  have hcall : 31 ≤ (((s.perform i a).goto i p').m.pc i).rank +
      ∑ k, ((((s.perform i a).goto i p').s k).pc i).rank := by
    cases a with
    | mutex op =>
      have h1 : ((s.perform i (.mutex op)).goto i p').m.pc i = .want op := at_pc_self ..
      have h2 : ∀ k, (((s.perform i (.mutex op)).goto i p').s k).pc i = .idle := hs
      simp [h1, h2, Monitor.Pc.rank]
    | semaphore k' op =>
      have h1 : ((s.perform i (.semaphore k' op)).goto i p').m.pc i = .idle := hm
      have h2 : ∀ k, ((((s.perform i (.semaphore k' op)).goto i p').s k).pc i).rank =
          if k = k' then 1 else 6 := by
        intro k
        show ((Function.update s.s k' _ k).pc i).rank = _
        by_cases hk : k = k'
        · subst hk
          rw [Function.update_self, at_pc_self, if_pos rfl]
          rfl
        · rw [Function.update_of_ne hk, if_neg hk, hs]
          rfl
      rw [h1, Finset.sum_congr rfl fun k _ => h2 k, sum_call]
      decide
    | none => exact (by decide : 31 ≤ 36).trans_eq hidle.symm
    | store j v => exact (by decide : 31 ≤ 36).trans_eq hidle.symm
  unfold State.spentBy
  rw [hpc]
  omega

end

/-- `main` or `g` runs a piece of its code, and makes one call at most. -/
theorem Ending.endedBy_exec {e : Ender} {c : Option SemaphoreOp} {q : EnderPc}
    (h : Ending s.syncS s.ender) (hx : EnderExec (s.syncS.pc e = .idle) e (s.ender e) c q) :
    s.endedBy e < (s.endTo e c q).endedBy e ∧
      ∀ e', e' ≠ e → (s.endTo e c q).endedBy e' = s.endedBy e' := by
  have hrank := hx.rank
  have hself : (s.endTo e c q).ender e = q := Function.update_self ..
  constructor
  · have hcall : 1 ≤ ((s.endTo e c q).syncS.pc e).rank := by
      cases c with
      | none =>
        have hidle : (s.endTo e none q).syncS.pc e = .idle := h.idle hx
        rw [hidle]
        decide
      | some op =>
        have hwant : (s.endTo e (some op) q).syncS.pc e = .want op := at_pc_self ..
        rw [hwant]
        exact Nat.le_refl 1
    have hle := Monitor.Pc.rank_le (s.syncS.pc e)
    unfold State.endedBy
    rw [hself]
    omega
  · intro e' hne
    have hother : (s.endTo e c q).ender e' = s.ender e' := Function.update_of_ne hne _ _
    have hcall : (s.endTo e c q).syncS.pc e' = s.syncS.pc e' := by
      cases c with
      | none => rfl
      | some op => exact Function.update_of_ne hne _ _
    unfold State.endedBy
    rw [hother, hcall]

/-- **Every step brings somebody nearer to a meal**, or to its end. -/
theorem Step.spent (hc : Coupled s) (he : Ending s.syncS s.ender) (hs : Step s s') :
    s.spent < s'.spent := by
  cases hs with
  | @exec i a p _ _ hx =>
    refine spent_lt i (hc.spentBy_exec hx) (fun j => ?_) fun e => by cases a <;> rfl
    by_cases hj : j = i
    · rw [hj]
      exact Nat.le_of_lt (hc.spentBy_exec hx)
    · exact Nat.le_of_eq (hx.spentBy_other hj).symm
  | mutex t _ hi =>
    obtain ⟨hle, i, hlt⟩ := hi.rank FiberMutex.lawful hc.mutex_inv hc.onMutex.calm
    refine spent_lt i ?_ (fun j => ?_) fun _ => rfl
    · unfold State.spentBy
      exact Nat.add_lt_add_right (Nat.add_lt_add_left hlt _) _
    · unfold State.spentBy
      exact Nat.add_le_add_right (Nat.add_le_add_left (hle j) _) _
  | semaphore k t _ hi =>
    obtain ⟨hle, i, hlt⟩ := hi.rank FiberSemaphore.lawful (hc.semaphore_inv k)
      (hc.onSemaphore k).calm
    have hk : ∀ j k', ((s.s k').pc j).rank ≤ ((Function.update s.s k t k').pc j).rank := by
      intro j k'
      by_cases hk : k' = k
      · subst hk
        rw [Function.update_self]
        exact hle j
      · rw [Function.update_of_ne hk]
    refine spent_lt i ?_ (fun j => ?_) fun _ => rfl
    · unfold State.spentBy
      refine Nat.add_lt_add_left (Finset.sum_lt_sum (fun k' _ => hk i k')
        ⟨k, Finset.mem_univ k, ?_⟩) _
      rw [Function.update_self]
      exact hlt
    · unfold State.spentBy
      exact Nat.add_le_add_left (Finset.sum_le_sum fun k' _ => hk j k') _
  | @ender e c q _ _ hx =>
    refine ended_lt e (he.endedBy_exec hx).1 (fun e' => ?_) fun _ => rfl
    by_cases hne : e' = e
    · rw [hne]
      exact Nat.le_of_lt (he.endedBy_exec hx).1
    · exact Nat.le_of_eq ((he.endedBy_exec hx).2 e' hne).symm
  | syncS t _ hi =>
    obtain ⟨hle, e, hlt⟩ := hi.rank FiberSemaphore.lawful
      (Reach.inv FiberSemaphore.lawful rfl he.calls.reach) he.calls.calm
    refine ended_lt e ?_ (fun e' => ?_) fun _ => rfl
    · exact Nat.add_lt_add_left hlt _
    · exact Nat.add_le_add_left (hle e') _

theorem spent_le (s : State) :
    s.spent ≤ ∑ i, (6 * (30 * s.meals i + 29) + 36) + (54 + 54) := by
  have hend : ∀ e, s.endedBy e ≤ 54 := by
    intro e
    have h1 := (s.ender e).rank_le
    have h2 := (s.syncS.pc e).rank_le
    unfold State.endedBy
    omega
  refine Nat.add_le_add (Finset.sum_le_sum fun i _ => ?_) (Nat.add_le_add (hend _) (hend _))
  have h1 := (s.pc i).lap_le
  have h2 := (s.m.pc i).rank_le
  have h3 := Finset.sum_le_card_nsmul Finset.univ (fun k => ((s.s k).pc i).rank) 6
    fun k _ => Monitor.Pc.rank_le _
  rw [Finset.card_univ, Fintype.card_fin, smul_eq_mul] at h3
  unfold State.spentBy
  omega

theorem Step.meals_le (hs : Step s s') (i : Ph) : s.meals i ≤ s'.meals i := by
  cases hs with
  | @exec j a p _ _ hx =>
    have he : ((s.perform j a).goto j p).meals =
        if p = .eating then Function.update s.meals j (s.meals j + 1) else s.meals := by
      cases a <;> rfl
    rw [he]
    split
    · by_cases hi : i = j
      · rw [hi, Function.update_self]
        omega
      · rw [Function.update_of_ne hi]
    · exact Nat.le_refl _
  | _ => exact Nat.le_refl _

/-! ## The philosophers -/

/-- Philosopher `i` has its forks: between `take_forks` and the store of `put_forks`. -/
def State.Eats (s : State) (i : Ph) : Prop := s.pc i = .eating ∨ s.pc i = .putting

/-- **The dining philosophers.** Under any interleaving, with the calls on the mutex and the
semaphores in pieces and sleeps that end at any time: neighbours never eat at once; no signal of a
semaphore is dropped, and none holds more than one token; as long as nobody has the mutex a hungry
philosopher has a neighbour that eats; `main` returns only when `g` has slept and signalled; and
until then a philosopher can move, or `main` can spawn one, whatever `g` does. Every run comes to
the return of `main`, or there are always more meals to come. -/
theorem dining_philosophers :
    (∀ s, Reached s → (∀ i, ¬ (s.Eats i ∧ s.Eats (right i))) ∧
      (∀ k, (s.s k).obj.dropped = [] ∧ (s.s k).obj.count.toNat ≤ 1) ∧
      (s.m.obj.owners = [] → ∀ k, s.state k = .hungry →
        s.state (left k) = .eating ∨ s.state (right k) = .eating) ∧
      (s.Over → s.ender .g = .signalling ∨ s.ender .g = .done) ∧
      (¬ s.Over → ∃ s', Step s s' ∧ s.EndStays s')) ∧
    ∀ ρ : CompleteRun Step, ρ.state 0 = .start → (∃ m, (ρ.state m).Over) ∨
      ∀ n, ∃ m, n < m ∧ ∃ i, (ρ.state n).meals i < (ρ.state m).meals i := by
  constructor
  · intro s h
    obtain ⟨hc, ht⟩ := h.coupled
    have heat : ∀ i, s.Eats i → s.state i = .eating := by
      intro i hi
      apply ht.eating_of_fed
      show (s.pc i).Fed _
      rcases hi with hi | hi <;> rw [hi] <;> trivial
    refine ⟨fun i hi => ht.apart i ⟨heat _ hi.1, heat _ hi.2⟩, fun k => ⟨?_, ?_⟩, fun ho k hk => ?_,
      h.ending.signalled, h.moves⟩
    · exact List.eq_nil_of_length_eq_zero (ht.dropped k)
    · show s.table.count k ≤ 1
      rcases ht.token k with ⟨hc, -⟩ | ⟨hc, -⟩ | ⟨hc, -⟩ <;> omega
    · rcases ht.fed k hk with hl | hr | ⟨i, hi⟩
      · exact .inl hl
      · exact .inr hr
      · -- who will test it has the mutex
        have hown : i ∈ s.table.owners := by
          rw [ht.owns]
          cases hp : s.table.pc i <;> simp [hp, Pc.Pending, Pc.Owns] at hi ⊢
        rw [show s.table.owners = [] from ho] at hown
        cases hown
  · intro ρ h0
    have hr : ∀ n, Reached (ρ.state n) := ρ.reachable h0
    by_cases hover : ∃ m, (ρ.state m).Over
    · exact .inl hover
    refine .inr fun n => ?_
    by_contra hno
    have hmono : ∀ m i, (ρ.state n).meals i ≤ (ρ.state (n + m)).meals i := by
      intro m i
      induction m with
      | zero => exact Nat.le_refl _
      | succ m ih =>
        rcases ρ.step (n + m) with hs | ⟨-, he⟩
        · exact ih.trans (hs.meals_le i)
        · exact ih.trans (Nat.le_of_eq (by rw [show n + (m + 1) = n + m + 1 by omega, he]))
    -- without a further meal the run would come to its end
    have hsame : ∀ m, (ρ.state (n + m)).meals = (ρ.state n).meals := by
      intro m
      funext i
      refine Nat.le_antisymm (Nat.le_of_not_lt fun hlt => ?_) (hmono m i)
      cases m with
      | zero => exact Nat.lt_irrefl _ hlt
      | succ m => exact hno ⟨n + (m + 1), by omega, i, hlt⟩
    have hspent : ∀ m s', Step ((ρ.drop n).state m) s' → ((ρ.drop n).state m).spent < s'.spent :=
      fun m s' hs => hs.spent (hr (n + m)).coupled.1 (hr (n + m)).ending
    obtain ⟨m, hm⟩ := (ρ.drop n).stops hspent fun m => by
      have hle := spent_le (ρ.state (n + m))
      rw [hsame m] at hle
      exact hle
    obtain ⟨s', hs, -⟩ := (hr (n + m)).moves fun ho => hover ⟨n + m, ho⟩
    exact hm s' hs

/-! ## A meal -/

theorem not_over {n : Nat} (hm : s.ender .main = .spawning n) : ¬ s.Over := fun ho => by
  cases hm.symm.trans ho

namespace Reached

variable {n : Nat}

theorem code (h : Reached s) (hm : s.ender .main = .spawning n) (hi : i.val < n)
    (hx : Exec s.state (s.m.pc i = .idle) (fun k => (s.s k).pc i = .idle) i (s.pc i) a p) :
    Reached ((s.perform i a).goto i p) :=
  h.next (.exec i (not_over hm) (by rw [hm]; exact hi) hx)

theorem onMutex {t : Monitor.State Ph MutexOp (Owned Ph)} {q : Monitor.Pc Ph MutexOp}
    (h : Reached s) (hm : s.ender .main = .spawning n) (hs : Monitor.Step (mutex Ph) s.m t)
    (hpc : t.pc = (s.m.at i q).pc) (hi : s.m.pc i ≠ .idle) : Reached { s with m := t } :=
  h.next (.mutex t (not_over hm) (.of_at hs hpc hi))

theorem onSemaphore {t : Monitor.State Ph SemaphoreOp (Counted Ph)}
    {q : Monitor.Pc Ph SemaphoreOp} (h : Reached s) (hm : s.ender .main = .spawning n)
    (hs : Monitor.Step (semaphore Ph) (s.s k) t) (hpc : t.pc = ((s.s k).at i q).pc)
    (hi : (s.s k).pc i ≠ .idle) : Reached { s with s := Function.update s.s k t } :=
  h.next (.semaphore k t (not_over hm) (.of_at hs hpc hi))

end Reached

/-- Philosopher 0 gets its forks before the others are spawned, and there are runs. -/
theorem dining_philosophers_run : (∃ s, Reached s ∧ s.Eats 0 ∧ s.meals 0 = 1 ∧
      ¬ s.Eats (right 0) ∧ ∃ s', Step s s' ∧ s.EndStays s') ∧
    ∃ ρ : CompleteRun Step, (∃ m, (ρ.state m).Over) ∨
      ∀ n, ∃ m, n < m ∧ ∃ i, (ρ.state n).meals i < (ρ.state m).meals i := by
  constructor
  · have h0 : Reached .start := .start rfl
    have h1 : Reached (State.start.endTo .main none (.spawning 1)) :=
      h0.next (.ender .main (not_over (n := 0) rfl) (by simp) (.spawn 0 (by decide)))
    have h2 := h1.code (i := 0) (n := 1) rfl (by decide) .lockTake
      |>.onMutex (i := 0) (n := 1) (q := .inside .lock) rfl (.acquire 0 .lock rfl rfl rfl) rfl
        (fun he => by cases he)
      |>.onMutex (i := 0) (n := 1) (q := .idle) rfl (.critical 0 .lock rfl) rfl
        (fun he => by cases he)
    have h3 := h2.code (i := 0) (n := 1) rfl (by decide) (.hungry rfl)
      |>.code (i := 0) (n := 1) rfl (by decide) (.test .take)
      |>.code (i := 0) (n := 1) rfl (by decide) (.testLeft .take)
      |>.code (i := 0) (n := 1) rfl (by decide) (.testRight .take)
      |>.code (i := 0) (n := 1) rfl (by decide) (.eat .take)
    have h4 := h3.code (i := 0) (n := 1) rfl (by decide) (.signal .take)
      |>.onSemaphore (k := 0) (i := 0) (n := 1) (q := .inside .signal) rfl
        (.acquire 0 .signal rfl rfl rfl) rfl (fun he => by cases he)
      |>.onSemaphore (k := 0) (i := 0) (n := 1) (q := .idle) rfl (.critical 0 .signal rfl) rfl
        (fun he => by cases he)
      |>.code (i := 0) (n := 1) rfl (by decide) (.signalled .take rfl)
    have h5 := h4.code (i := 0) (n := 1) rfl (by decide) (.unlock .take (by decide))
      |>.onMutex (i := 0) (n := 1) (q := .inside .unlock) rfl (.acquire 0 .unlock rfl rfl rfl) rfl
        (fun he => by cases he)
      |>.onMutex (i := 0) (n := 1) (q := .idle) rfl (.critical 0 .unlock rfl) rfl
        (fun he => by cases he)
      |>.code (i := 0) (n := 1) rfl (by decide) (.unlockedTake rfl)
    have h6 := h5.code (i := 0) (n := 1) rfl (by decide) .wait
      |>.onSemaphore (k := 0) (i := 0) (n := 1) (q := .inside .wait) rfl
        (.acquire 0 .wait rfl rfl rfl) rfl (fun he => by cases he)
      |>.onSemaphore (k := 0) (i := 0) (n := 1) (q := .idle) rfl (.critical 0 .wait rfl) rfl
        (fun he => by cases he)
      |>.code (i := 0) (n := 1) rfl (by decide) (.fed rfl)
    obtain ⟨hapart, -, -, -, hmoves⟩ := dining_philosophers.1 _ h6
    exact ⟨_, h6, .inl rfl, rfl, fun hr => hapart 0 ⟨.inl rfl, hr⟩, hmoves (not_over (n := 1) rfl)⟩
  · obtain ⟨ρ, hρ⟩ := CompleteRun.exists_from Step .start
    exact ⟨ρ, dining_philosophers.2 ρ hρ⟩

end Demo.DiningPhilosopher
