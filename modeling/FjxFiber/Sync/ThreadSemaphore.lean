import FjxFiber.Lib.CondVar
import FjxFiber.Lib.Reach

/-!
# Thread semaphores (`src/std-thread.c`, `src/pthread.c`)

`fjx_thread_semaphore` has two implementations. The one of `std-thread.c` is a count under a mutex,
with a condition variable; that of `pthread.c` is a POSIX semaphore, whose `sem_wait` may return
without having taken anything when a signal handler interrupts it, and
`fjx_thread_semaphore_wait` does not look at the result.

A `Backend` is what the scheduler sees of either; `Lawful` says what the count does in each step
that is not interrupted.
-/

set_option autoImplicit false

namespace Sync.ThreadSemaphore

open Lib

inductive SemOp
  | wait
  | signal
  deriving DecidableEq, Repr

/-! ## `std-thread.c` -/

/-- `fjx_thread_semaphore_wait` and `fjx_thread_semaphore_signal`, over `count`. -/
def std : CondVar.Spec UInt32 SemOp where
  enter _ count := count
  guard
    | .wait, count => count == 0
    | .signal, _ => false
  leave
    | .wait, count => count - 1
    | .signal, count => count + 1
  notify
    | .wait, _ => .none
    | .signal, _ => .one

/-! ## `pthread.c` -/

namespace Posix

inductive Pc
  | out
  | semWait
  | semPost
  /-- About to return from the call. -/
  | done (op : SemOp)
  deriving DecidableEq, Repr

def Pc.phase : Pc → Phase SemOp
  | out => .out
  | semWait => .before .wait
  | semPost => .before .signal
  | done op => .after op

def Pc.of : SemOp → Pc
  | .wait => .semWait
  | .signal => .semPost

/-- `SEM_VALUE_MAX`, at least. -/
def semValueMax : Nat := 32767

structure State (ι : Type) where
  value : Nat
  pc : ι → Pc
  counts : Counts SemOp
  /-- How many calls of `sem_wait` have been interrupted. -/
  interrupted : Nat

variable {ι : Type} [DecidableEq ι]

def State.goto (s : State ι) (t : ι) (p : Pc) : State ι :=
  { s with pc := Function.update s.pc t p }

def State.start (count : Nat) : State ι := ⟨count, fun _ => .out, .zero, 0⟩

inductive Step : State ι → Act ι SemOp → State ι → Prop
  | call {s t} (op : SemOp) (ht : s.pc t = .out) :
      Step s (.call t op) { s.goto t (.of op) with counts := s.counts.call op }
  | take {s t n} (ht : s.pc t = .semWait) (hn : s.value = n + 1) :
      Step s (.pass t .wait) { s.goto t (.done .wait) with
        value := n, counts := s.counts.pass .wait }
  /-- `sem_wait` returns -1 with `EINTR`. -/
  | interrupt {s t} (ht : s.pc t = .semWait) :
      Step s (.interrupt t .wait) { s.goto t (.done .wait) with
        counts := s.counts.pass .wait, interrupted := s.interrupted + 1 }
  | post {s t} (ht : s.pc t = .semPost) :
      Step s (.pass t .signal) { s.goto t (.done .signal) with
        value := s.value + 1, counts := s.counts.pass .signal }
  /-- `sem_post` returns -1 with `EOVERFLOW`. -/
  | overflow {s t} (ht : s.pc t = .semPost) (hmax : semValueMax ≤ s.value) :
      Step s (.pass t .signal) { s.goto t (.done .signal) with
        counts := s.counts.pass .signal }
  | ret {s t op} (ht : s.pc t = .done op) :
      Step s (.ret t op) { s.goto t .out with counts := s.counts.ret op }

variable {s s' : State ι} {act : Act ι SemOp} {t : ι}

def State.phase (s : State ι) (t : ι) : Phase SemOp := (s.pc t).phase

theorem State.phase_update {p : Pc} (hpc : s'.pc = Function.update s.pc t p) :
    s'.phase = Function.update s.phase t p.phase := by
  funext u
  unfold State.phase
  rw [hpc]
  by_cases hu : u = t <;> simp [hu]

theorem counts_step (hs : Step s act s') : s'.counts = s.counts.act act := by
  cases hs <;> rfl

theorem phase_step (hs : Step s act s') : s'.phase = act.phase s.phase ∧ act.Fits s.phase := by
  have hphase : ∀ {t : ι} {p : Pc}, s.pc t = p → s.phase t = p.phase := by
    intro t p hp
    unfold State.phase
    rw [hp]
  cases hs with
  | call op ht =>
    refine ⟨?_, hphase ht⟩
    rw [State.phase_update (s := s) rfl]
    cases op <;> rfl
  | take ht | interrupt ht | post ht | overflow ht | ret ht =>
    refine ⟨?_, hphase ht⟩
    rw [State.phase_update (s := s) rfl]
    rfl

theorem tallied_step (h : Tallied s.phase s.counts) (hs : Step s act s') :
    Tallied s'.phase s'.counts := by
  obtain ⟨hp, hf⟩ := phase_step hs
  rw [hp, counts_step hs]
  exact h.act hf

end Posix

/-! ## Either implementation -/

/-- An implementation of `fjx_thread_semaphore`, used by the threads `ι`. -/
structure Backend (ι : Type) where
  State : Type
  /-- `fjx_thread_semaphore_init`. -/
  init : UInt32 → State
  Step : State → Act ι SemOp → State → Prop
  count : State → Nat
  phase : State → ι → Phase SemOp
  counts : State → Counts SemOp

variable {ι : Type} [DecidableEq ι]

def Backend.std : Backend ι where
  State := CondVar.State ι UInt32 SemOp
  init count := .start count
  Step := CondVar.Step ThreadSemaphore.std
  count s := s.mem.toNat
  phase := CondVar.State.phase
  counts := CondVar.State.counts

/-- `sem_init` takes any count here. It fails for one above `SEM_VALUE_MAX`, where the code aborts
unless `NDEBUG` is set; the scheduler passes 0 only. -/
def Backend.posix : Backend ι where
  State := Posix.State ι
  init count := .start count.toNat
  Step := Posix.Step
  count := Posix.State.value
  phase := Posix.State.phase
  counts := Posix.State.counts

namespace Backend

/-- The step is not the return of an interrupted `sem_wait`. -/
def Uninterrupted : Act ι SemOp → Prop
  | .interrupt _ _ => False
  | _ => True

/-- The counts agree with where the threads are; a wait that is not interrupted takes one from the
count, a signal adds one unless the count is large, and nothing else changes it. -/
structure Lawful (B : Backend ι) : Prop where
  init : ∀ c, B.count (B.init c) = c.toNat ∧ B.counts (B.init c) = .zero
  out : ∀ c t, B.phase (B.init c) t = .out
  counts : ∀ s act s', B.Step s act s' → B.counts s' = (B.counts s).act act
  tallied : ∀ s act s', Tallied (B.phase s) (B.counts s) → B.Step s act s' →
    Tallied (B.phase s') (B.counts s')
  keep : ∀ s act s', B.Step s act s' → (∀ t op, act ≠ .pass t op) → B.count s' = B.count s
  wait : ∀ s t s', B.Step s (.pass t .wait) s' → B.count s = B.count s' + 1
  signal : ∀ s t s', B.Step s (.pass t .signal) s' → B.count s' ≤ B.count s + 1 ∧
    (B.count s < Posix.semValueMax → B.count s' = B.count s + 1)

theorem std_lawful : (std : Backend ι).Lawful where
  init c := ⟨rfl, rfl⟩
  out c t := rfl
  counts s act s' hs := CondVar.counts_step hs
  tallied s act s' h hs := CondVar.tallied_step h hs
  keep s act s' hs hact := by
    rcases CondVar.entered_step hs with ⟨hm, -⟩ | ⟨t, a, -, -, hm, -⟩ | ⟨t, a, ha, -⟩
    · exact congrArg UInt32.toNat hm
    · exact congrArg UInt32.toNat hm
    · exact absurd ha (hact t a)
  wait s t s' hs := by
    obtain ⟨hg, hm⟩ := CondVar.pass_step hs
    show s.mem.toNat = s'.mem.toNat + 1
    have hne : s.mem ≠ 0 := by
      intro h0
      rw [h0] at hg
      cases hg
    rw [hm]
    show s.mem.toNat = (s.mem - 1).toNat + 1
    have hpos : 0 < s.mem.toNat := by
      by_contra h0
      exact hne (UInt32.toNat_inj.1 (by simpa using h0))
    have hle : (1 : UInt32) ≤ s.mem := by
      rw [UInt32.le_iff_toNat_le]
      exact hpos
    rw [UInt32.toNat_sub_of_le _ _ hle]
    exact (Nat.sub_add_cancel hpos).symm
  signal s t s' hs := by
    obtain ⟨-, hm⟩ := CondVar.pass_step hs
    have he : s'.mem.toNat = (s.mem.toNat + 1) % 2 ^ 32 := by
      rw [hm]
      exact UInt32.toNat_add s.mem 1
    show s'.mem.toNat ≤ s.mem.toNat + 1 ∧ (s.mem.toNat < 32767 → s'.mem.toNat = s.mem.toNat + 1)
    omega

theorem posix_lawful : (posix : Backend ι).Lawful where
  init c := ⟨rfl, rfl⟩
  out c t := rfl
  counts s act s' hs := Posix.counts_step hs
  tallied s act s' h hs := Posix.tallied_step h hs
  keep s act s' hs hact := by
    cases hs with
    | take | post | overflow => exact absurd rfl (hact _ _)
    | call | interrupt | ret => rfl
  wait s t s' hs := by
    cases hs with
    | take ht hn => exact hn
  signal s t s' hs := by
    cases hs with
    | post ht => exact ⟨Nat.le_refl _, fun _ => rfl⟩
    | overflow ht hmax =>
      refine ⟨Nat.le_succ _, ?_⟩
      intro hlt
      exact absurd hlt (Nat.not_lt.2 hmax)

/-! ## Runs -/

variable {B : Backend ι} {c : UInt32} {s s' : B.State} {act : Act ι SemOp}

/-- The states reached from an initial count. -/
abbrev Reached (B : Backend ι) (c : UInt32) : B.State → Prop :=
  Reachable (fun s => s = B.init c) fun s s' => ∃ act, B.Step s act s'

/-- The states reached while no `sem_wait` is interrupted. -/
abbrev Calm (B : Backend ι) (c : UInt32) : B.State → Prop :=
  Reachable (fun s => s = B.init c) fun s s' => ∃ act, Uninterrupted act ∧ B.Step s act s'

/-- No wait of `std-thread.c` is interrupted: `cnd_wait` is called again until there is something
to take. -/
theorem std_uninterrupted {s s' : (std : Backend ι).State} (hs : Backend.std.Step s act s') :
    Uninterrupted act := by
  cases hs <;> exact trivial

theorem std_calm {s : (std : Backend ι).State} (h : Backend.std.Reached c s) :
    Backend.std.Calm c s := by
  apply h.mono
  intro s s' ⟨act, hs⟩
  exact ⟨act, std_uninterrupted hs, hs⟩

/-- What has been taken, and what is left, has been there from the start or has been signalled. -/
structure Balanced (B : Backend ι) (c : UInt32) (s : B.State) : Prop where
  tallied : Tallied (B.phase s) (B.counts s)
  tokens : B.count s + (B.counts s).passes .wait ≤ c.toNat + (B.counts s).passes .signal

omit [DecidableEq ι] in
theorem Balanced.init (hB : B.Lawful) (c : UInt32) : Balanced B c (B.init c) := by
  obtain ⟨hc, hn⟩ := hB.init c
  refine ⟨?_, ?_⟩
  · rw [hn]
    exact .zero (hB.out c)
  · rw [hc, hn]
    exact Nat.le_refl _

omit [DecidableEq ι] in
theorem Balanced.step (hB : B.Lawful) (h : Balanced B c s) (hact : Uninterrupted act)
    (hs : B.Step s act s') : Balanced B c s' := by
  refine ⟨hB.tallied s act s' h.tallied hs, ?_⟩
  have htok := h.tokens
  rw [hB.counts s act s' hs]
  cases act with
  | silent | call t op | ret t op =>
    rw [hB.keep s _ s' hs nofun]
    exact htok
  | interrupt t op => exact hact.elim
  | pass t op =>
    cases op with
    | wait =>
      have hw := hB.wait s t s' hs
      simp only [Counts.act, Counts.pass, Function.update_self]
      rw [Function.update_of_ne (by decide)]
      omega
    | signal =>
      have hg := (hB.signal s t s' hs).1
      simp only [Counts.act, Counts.pass, Function.update_self]
      rw [Function.update_of_ne (by decide)]
      omega

omit [DecidableEq ι] in
theorem Calm.balanced (hB : B.Lawful) (h : B.Calm c s) : Balanced B c s := by
  refine h.invariant (J := Balanced B c) ?_ ?_
  · rintro s rfl
    exact .init hB c
  · intro s s' hb ⟨act, hact, hs⟩
    exact hb.step hB hact hs

omit [DecidableEq ι] in
/-- **No wait returns for nothing**: while no `sem_wait` is interrupted, no more waits have returned
than there were tokens at first and calls of signal since. -/
theorem Calm.returned_le (hB : B.Lawful) (h : B.Calm c s) :
    (B.counts s).returned .wait ≤ c.toNat + (B.counts s).calls .signal := by
  have hb := Calm.balanced hB h
  have h1 := hb.tallied.returned_le .wait
  have h2 := hb.tallied.passes_le .signal
  have h3 := hb.tokens
  omega

end Backend

end Sync.ThreadSemaphore
