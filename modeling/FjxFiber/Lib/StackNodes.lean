import FjxFiber.Lib.Reach
import Mathlib.Logic.Function.Basic

/-!
# Locks with nodes on the stacks of their callers

An object `lock` and a node for every call that is under way, on the stack of its caller. A thread
is a `Program`: what it does next is one `Access`, a read or a write of one object (or both, where
it is atomic), after which it goes on with what it read. When the call returns its node is gone,
and other code uses the memory; a later call may have its node at the same address.

A `Ref` is a pointer to a node together with the call that the node is of. The machine reads and
compares addresses only. Which call a pointer was made in is recorded so that it can be said that
no access is to the node of a call that has returned (`Live`).
-/

set_option autoImplicit false

namespace Lib.StackNodes

/-- The node of a call: whose call it is, its number, and where the node lies. -/
structure Ref (ι A : Type*) where
  thread : ι
  call : Nat
  addr : A
  deriving DecidableEq, Repr

inductive Ptr (ι A : Type*)
  | null
  | lock
  | node (r : Ref ι A)
  deriving DecidableEq, Repr

/-- What a comparison of two pointers sees. -/
def Ptr.same {ι A : Type*} [DecidableEq A] : Ptr ι A → Ptr ι A → Bool
  | null, null => true
  | lock, lock => true
  | node r, node r' => r.addr = r'.addr
  | _, _ => false

/-- One atomic access: the object, what the access leaves there, and how the thread goes on. -/
structure Access (ι A N P : Type*) where
  target : Ptr ι A
  act : N → N × P

/-- What the threads do, with objects `N` and program counters `P`. -/
structure Program (ι A N P : Type*) where
  /-- The thread is between two calls. -/
  out : P
  /-- A call begins. -/
  enter : Ref ι A → P
  /-- The next access, unless the thread is between two calls. -/
  code : P → Option (Access ι A N P)
  /-- The node of the call that the thread is in. -/
  node : P → Option (Ref ι A)
  /-- The next access takes a place in the queue. -/
  exchanges : P → Bool
  /-- With the next access the call has the lock. -/
  enters : P → Bool

structure State (ι A N P : Type*) where
  lock : N
  mem : A → N
  pc : ι → P
  /-- How many calls there were. -/
  calls : Nat
  /-- The calls that took a place in the queue, got the lock and returned, in order. -/
  exchanged : List (Ref ι A)
  entered : List (Ref ι A)
  returned : List (Ref ι A)

variable {ι A N P : Type*}

namespace State

/-- The object a pointer points to. -/
def load (s : State ι A N P) : Ptr ι A → Option N
  | .null => none
  | .lock => some s.lock
  | .node r => some (s.mem r.addr)

def store [DecidableEq A] (s : State ι A N P) (n : N) : Ptr ι A → State ι A N P
  | .null => s
  | .lock => { s with lock := n }
  | .node r => { s with mem := Function.update s.mem r.addr n }

section
variable [DecidableEq A] (s : State ι A N P) (n : N) (p : Ptr ι A)

@[simp] theorem store_pc : (s.store n p).pc = s.pc := by cases p <;> rfl
@[simp] theorem store_calls : (s.store n p).calls = s.calls := by cases p <;> rfl
@[simp] theorem store_exchanged : (s.store n p).exchanged = s.exchanged := by cases p <;> rfl
@[simp] theorem store_entered : (s.store n p).entered = s.entered := by cases p <;> rfl
@[simp] theorem store_returned : (s.store n p).returned = s.returned := by cases p <;> rfl

end

end State

namespace Program

variable (M : Program ι A N P)

/-- The state in which nobody has called yet. -/
def start (lock : N) (mem : A → N) : State ι A N P :=
  { lock, mem, pc := fun _ => M.out, calls := 0, exchanged := [], entered := [], returned := [] }

/-- The node is of a call that is under way. -/
def Running (s : State ι A N P) (r : Ref ι A) : Prop := M.node (s.pc r.thread) = some r

/-- No node of a call under way lies at the address. -/
def Free (s : State ι A N P) (a : A) : Prop :=
  ∀ u r, M.node (s.pc u) = some r → r.addr ≠ a

variable [DecidableEq ι] [DecidableEq A]

/-- The thread `t` does the access `x` to an object `n`. -/
def perform (s : State ι A N P) (t : ι) (x : Access ι A N P) (n : N) : State ι A N P :=
  let p := s.pc t
  let mm := (M.node p).toList
  { s.store (x.act n).1 x.target with
    pc := Function.update s.pc t (x.act n).2
    exchanged := if M.exchanges p then s.exchanged ++ mm else s.exchanged
    entered := if M.enters p then s.entered ++ mm else s.entered
    returned := if M.node (x.act n).2 = none then s.returned ++ mm else s.returned }

/-- The next access of `t`; `none` between two calls, and when a null pointer is dereferenced. -/
def move (s : State ι A N P) (t : ι) : Option (State ι A N P) :=
  (M.code (s.pc t)).bind fun x => (s.load x.target).map fun n => M.perform s t x n

inductive Step : State ι A N P → State ι A N P → Prop
  /-- A call begins, with its node where no other is. -/
  | call {s t} (a : A) (ht : s.pc t = M.out) (ha : M.Free s a) :
      Step s { s with
        pc := Function.update s.pc t (M.enter ⟨t, s.calls, a⟩), calls := s.calls + 1 }
  | access {s s' t} (h : M.move s t = some s') : Step s s'
  /-- Other code uses its stack. -/
  | other {s} (a : A) (n : N) (ha : M.Free s a) :
      Step s { s with mem := Function.update s.mem a n }

theorem move_eq_some {s s' : State ι A N P} {t : ι} :
    M.move s t = some s' ↔
      ∃ x n, M.code (s.pc t) = some x ∧ s.load x.target = some n ∧ M.perform s t x n = s' := by
  unfold move
  simp only [Option.bind_eq_some_iff, Option.map_eq_some_iff]
  constructor
  · rintro ⟨x, hx, n, hn, hs⟩
    exact ⟨x, n, hx, hn, hs⟩
  · rintro ⟨x, n, hx, hn, hs⟩
    exact ⟨x, hx, n, hn, hs⟩

/-- The next accesses of the threads `ts`, one after another. -/
def moves (s : State ι A N P) : List ι → Option (State ι A N P)
  | [] => some s
  | t :: ts => (M.move s t).bind fun s' => moves s' ts

theorem moves_eq (s : State ι A N P) (ts : List ι) : M.moves s ts = ts.foldlM M.move s := by
  induction ts generalizing s with
  | nil => rfl
  | cons t ts ih => simp [moves, ih, Option.bind_eq_bind]

theorem moves_run {s s' : State ι A N P} {ts : List ι} (h : M.moves s ts = some s') :
    Relation.ReflTransGen M.Step s s' := by
  induction ts generalizing s with
  | nil =>
    obtain rfl := Option.some.inj h
    exact .refl
  | cons t ts ih =>
    obtain ⟨s₁, h₁, h⟩ := Option.bind_eq_some_iff.1 h
    exact .head (.access h₁) (ih h)

/-- What the access `x` of a thread at `p` leaves, from the object `n` it finds. -/
structure Moved (s s' : State ι A N P) (t : ι) (p : P) (x : Access ι A N P) (n : N) : Prop where
  pc : s'.pc = Function.update s.pc t (x.act n).2
  lock : s'.lock = (s.store (x.act n).1 x.target).lock
  mem : s'.mem = (s.store (x.act n).1 x.target).mem
  exchanged : s'.exchanged =
    if M.exchanges p then s.exchanged ++ (M.node p).toList else s.exchanged
  entered : s'.entered = if M.enters p then s.entered ++ (M.node p).toList else s.entered

theorem moved {s s' : State ι A N P} {t : ι} {p : P} {x : Access ι A N P} {n : N}
    (hx : M.code p = some x) (ht : s.pc t = p) (hn : s.load x.target = some n)
    (hm : M.move s t = some s') : M.Moved s s' t p x n := by
  obtain ⟨x', n', hx', hn', rfl⟩ := M.move_eq_some.1 hm
  subst ht
  obtain rfl := Option.some.inj (hx.symm.trans hx')
  obtain rfl := Option.some.inj (hn.symm.trans hn')
  exact ⟨rfl, rfl, rfl, rfl, rfl⟩

/-- A thread leaves a call only by returning from it. -/
structure Lawful : Prop where
  out : M.node M.out = none
  enter : ∀ r, M.node (M.enter r) = some r
  keep : ∀ p x, M.code p = some x → ∀ n,
    M.node (x.act n).2 = M.node p ∨ M.node (x.act n).2 = none

end Program

/-! ## The nodes of calls under way -/

variable {M : Program ι A N P} {s s' : State ι A N P}

/-- A write that leaves a field of one object alone leaves it alone everywhere. -/
theorem field_update [DecidableEq A] {X : Type*} {f : N → X} {mem : A → N} {a : A} {n : N}
    (h : f n = f (mem a)) (b : A) : f (Function.update mem a n b) = f (mem b) := by
  by_cases hb : b = a
  · rw [hb, Function.update_self, h]
  · rw [Function.update_of_ne hb]

/-- Each call under way has its own node, at an address of its own, and has not returned. -/
structure Live (M : Program ι A N P) (s : State ι A N P) : Prop where
  own : ∀ t r, M.node (s.pc t) = some r → r.thread = t ∧ r.call < s.calls
  apart : ∀ t u r r', M.node (s.pc t) = some r → M.node (s.pc u) = some r' → r.addr = r'.addr →
    t = u
  returned : ∀ r ∈ s.returned, r.call < s.calls ∧ ¬ M.Running s r

namespace Live

theorem start (hM : M.Lawful) (lock : N) (mem : A → N) : Live M (M.start lock mem) where
  own t r h := by
    rw [Program.start, hM.out] at h
    cases h
  apart t u r r' h := by
    rw [Program.start, hM.out] at h
    cases h
  returned r hr := absurd hr List.not_mem_nil

variable (h : Live M s)
include h

theorem running {t : ι} {r : Ref ι A} (ht : M.node (s.pc t) = some r) : M.Running s r := by
  unfold Program.Running
  rw [(h.own t r ht).1, ht]

/-- Two nodes that are there at once lie apart. -/
theorem eq_of_addr {r r' : Ref ι A} (hr : M.Running s r) (hr' : M.Running s r')
    (ha : r.addr = r'.addr) : r = r' := by
  have ht := h.apart r.thread r'.thread r r' hr hr' ha
  have hr := hr
  unfold Program.Running at hr hr'
  rw [ht, hr'] at hr
  exact (Option.some.inj hr).symm

/-- A thread that writes its own node leaves the others' alone. -/
theorem mem_other [DecidableEq A] {t u : ι} {mm r : Ref ι A} {n : N}
    (ht : M.node (s.pc t) = some mm) (hu : u ≠ t) (hr : M.node (s.pc u) = some r) :
    Function.update s.mem mm.addr n r.addr = s.mem r.addr := by
  apply Function.update_of_ne
  intro ha
  exact hu (h.apart u t r mm hr ht ha)

/-- A write to the node of one call leaves the nodes of the others alone. -/
theorem update_other [DecidableEq A] {r r' : Ref ι A} {n : N} (hr : M.Running s r)
    (hr' : M.Running s r') (hne : r' ≠ r) :
    Function.update s.mem r.addr n r'.addr = s.mem r'.addr := by
  apply Function.update_of_ne
  intro ha
  exact hne (h.eq_of_addr hr' hr ha)

theorem not_returned {r : Ref ι A} (hr : M.Running s r) : r ∉ s.returned :=
  fun hm => (h.returned r hm).2 hr

/-- A thread has gone on, in its call or out of it. -/
theorem goto [DecidableEq ι] {t : ι} {p : P} (hpc : s'.pc = Function.update s.pc t p)
    (hp : M.node p = M.node (s.pc t) ∨ M.node p = none) (hcalls : s'.calls = s.calls)
    (hret : s'.returned =
      if M.node p = none then s.returned ++ (M.node (s.pc t)).toList else s.returned) :
    Live M s' := by
  have hnode : ∀ u r, M.node (s'.pc u) = some r → M.node (s.pc u) = some r := by
    intro u r hr
    rw [hpc] at hr
    by_cases hu : u = t
    · subst hu
      rw [Function.update_self] at hr
      rcases hp with hp | hp
      · rw [← hp, hr]
      · rw [hp] at hr
        cases hr
    · rwa [Function.update_of_ne hu] at hr
  refine ⟨?_, ?_, ?_⟩
  · intro u r hr
    rw [hcalls]
    exact h.own u r (hnode u r hr)
  · intro u v r r' hr hr'
    exact h.apart u v r r' (hnode u r hr) (hnode v r' hr')
  · intro r hr
    rw [hret] at hr
    rw [hcalls]
    have hold : ∀ r ∈ s.returned, r.call < s.calls ∧ ¬ M.Running s' r := fun r hr =>
      ⟨(h.returned r hr).1, fun hrun => (h.returned r hr).2 (hnode _ _ hrun)⟩
    split at hr
    case isFalse => exact hold r hr
    case isTrue hnone =>
      rcases List.mem_append.1 hr with hr | hr
      · exact hold r hr
      · have hown := h.own t r (by simpa using hr)
        refine ⟨hown.2, ?_⟩
        unfold Program.Running
        rw [hpc, hown.1, Function.update_self, hnone]
        simp

theorem call [DecidableEq ι] (hM : M.Lawful) {t : ι} {a : A} (ha : M.Free s a) :
    Live M { s with
      pc := Function.update s.pc t (M.enter ⟨t, s.calls, a⟩), calls := s.calls + 1 } := by
  have hnode : ∀ u r, M.node (Function.update s.pc t (M.enter ⟨t, s.calls, a⟩) u) = some r →
      u = t ∧ r = ⟨t, s.calls, a⟩ ∨ u ≠ t ∧ M.node (s.pc u) = some r := by
    intro u r hr
    by_cases hu : u = t
    · subst hu
      rw [Function.update_self, hM.enter] at hr
      exact .inl ⟨rfl, (Option.some.inj hr).symm⟩
    · rw [Function.update_of_ne hu] at hr
      exact .inr ⟨hu, hr⟩
  refine ⟨?_, ?_, ?_⟩
  · intro u r hr
    rcases hnode u r hr with ⟨rfl, rfl⟩ | ⟨-, hr⟩
    · exact ⟨rfl, Nat.lt_succ_self _⟩
    · exact ⟨(h.own u r hr).1, Nat.lt_succ_of_lt (h.own u r hr).2⟩
  · intro u v r r' hr hr' hra
    rcases hnode u r hr with ⟨rfl, rfl⟩ | ⟨-, hu⟩ <;>
      rcases hnode v r' hr' with ⟨rfl, rfl⟩ | ⟨-, hv⟩
    · rfl
    · exact absurd hra.symm (ha v r' hv)
    · exact absurd hra (ha u r hu)
    · exact h.apart u v r r' hu hv hra
  · intro r hr
    obtain ⟨hlt, hrun⟩ := h.returned r hr
    refine ⟨Nat.lt_succ_of_lt hlt, ?_⟩
    intro hrun'
    rcases hnode _ r hrun' with ⟨-, he⟩ | ⟨-, hr'⟩
    · rw [he] at hlt
      exact Nat.lt_irrefl _ hlt
    · exact hrun hr'

theorem step [DecidableEq ι] [DecidableEq A] (hM : M.Lawful) (hs : M.Step s s') : Live M s' := by
  cases hs with
  | call a ht ha => exact h.call hM ha
  | other a n ha => exact ⟨h.own, h.apart, h.returned⟩
  | access hm =>
    obtain ⟨x, n, hx, hn, rfl⟩ := M.move_eq_some.1 hm
    apply h.goto (p := (x.act n).2)
    · rfl
    · exact hM.keep _ x hx n
    · exact State.store_calls _ _ _
    · rfl

end Live

end Lib.StackNodes
