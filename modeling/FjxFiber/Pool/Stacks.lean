import FjxFiber.Lib.Placement
import FjxFiber.Lib.Reach
import FjxFiber.Pool.Memory
import Mathlib.Logic.Function.Basic

/-!
# Stacks from spawn to reuse (`get_available_memory`, `recycle_fiber_pair`, `fiber_exit`)

A spawn is an `i : ι`, and so is the fiber it makes: `fiber_spawn`, and `fiber_spawn_stack_top` for
the main loop. `Step` interleaves the pieces of any number of spawns and exits: the section of
`get_available_memory` under `disposed_fiber_lock`, the creation of a stack and its insertion in
the pool, the read of the popped descriptor, the search of the pool, the exit up to and after its
context switch, and the deferred recycling, which runs on another stack.

The descriptor and the recycle argument of an exit lie on the stack of the exiting fiber. Who runs
on that stack may overwrite them, and the links of the disposed fibers that lie there
(`Step.write`).
-/

set_option autoImplicit false

namespace Pool

open Lib

variable {ι : Type*}

/-- Where a fiber stands, from the call that spawns it to the reuse of its stack. -/
inductive Pc (ι : Type*)
  | fresh
  /-- In `get_available_memory`, about to take `disposed_fiber_lock`. -/
  | wanting
  /-- `disposed_fiber_list` was empty: about to create a stack. -/
  | creating
  | inserting (m : FiberMemory)
  /-- The disposed fiber `f` has been popped, its `stack_top` is to be read. -/
  | popped (f : ι)
  /-- The pool is to be searched for `addr`. -/
  | querying (f : ι) (addr : Nat)
  /-- `get_available_memory` has returned. -/
  | got (r : Option FiberMemory)
  /-- Its frame is written: it may run. -/
  | live (m : FiberMemory)
  /-- In `fiber_exit`, with the next context chosen. -/
  | exiting (m : FiberMemory)
  /-- Switched away; the next context is to recycle it. -/
  | switched (m : FiberMemory)
  /-- In `disposed_fiber_list`. -/
  | disposed (m : FiberMemory)
  /-- Popped from `disposed_fiber_list`. -/
  | taken (m : FiberMemory)
  /-- Its stack has been handed out. -/
  | recycled (m : FiberMemory)
  deriving DecidableEq, Repr

namespace Pc

/-- The stack that belongs to the fiber. -/
def region : Pc ι → List FiberMemory
  | inserting m | got (some m) | live m | exiting m | switched m | disposed m | taken m => [m]
  | _ => []

/-- The stack `get_available_memory` returned. -/
def given : Pc ι → Option FiberMemory
  | got (some m) | live m | exiting m | switched m | disposed m | taken m | recycled m => some m
  | _ => none

/-- The disposed fiber whose stack the call is looking for. -/
def asks : Pc ι → Option ι
  | popped f | querying f _ => some f
  | _ => none

/-- The deferred operation of its exit has run. -/
def past : Pc ι → Bool
  | disposed _ | taken _ | recycled _ => true
  | _ => false

/-- A disposed fiber is popped. -/
def take : Pc ι → Pc ι
  | disposed m => taken m
  | p => p

/-- The stack of a popped fiber is handed out. -/
def reuse : Pc ι → Pc ι
  | taken m => recycled m
  | p => p

@[simp] theorem region_eq :
    (fresh : Pc ι).region = [] ∧ (wanting : Pc ι).region = [] ∧ (creating : Pc ι).region = [] ∧
    (∀ m, (inserting m : Pc ι).region = [m]) ∧ (∀ f, (popped f : Pc ι).region = []) ∧
    (∀ f a, (querying f a : Pc ι).region = []) ∧ (got none : Pc ι).region = [] ∧
    (∀ m, (got (some m) : Pc ι).region = [m]) ∧ (∀ m, (live m : Pc ι).region = [m]) ∧
    (∀ m, (exiting m : Pc ι).region = [m]) ∧ (∀ m, (switched m : Pc ι).region = [m]) ∧
    (∀ m, (disposed m : Pc ι).region = [m]) ∧ (∀ m, (taken m : Pc ι).region = [m]) ∧
    (∀ m, (recycled m : Pc ι).region = []) := by
  simp [region]

@[simp] theorem given_eq :
    (fresh : Pc ι).given = none ∧ (wanting : Pc ι).given = none ∧
    (creating : Pc ι).given = none ∧ (∀ m, (inserting m : Pc ι).given = none) ∧
    (∀ f, (popped f : Pc ι).given = none) ∧ (∀ f a, (querying f a : Pc ι).given = none) ∧
    (got none : Pc ι).given = none ∧ (∀ m, (got (some m) : Pc ι).given = some m) ∧
    (∀ m, (live m : Pc ι).given = some m) ∧ (∀ m, (exiting m : Pc ι).given = some m) ∧
    (∀ m, (switched m : Pc ι).given = some m) ∧ (∀ m, (disposed m : Pc ι).given = some m) ∧
    (∀ m, (taken m : Pc ι).given = some m) ∧ (∀ m, (recycled m : Pc ι).given = some m) := by
  simp [given]

@[simp] theorem asks_eq :
    (fresh : Pc ι).asks = none ∧ (wanting : Pc ι).asks = none ∧ (creating : Pc ι).asks = none ∧
    (∀ m, (inserting m : Pc ι).asks = none) ∧ (∀ f, (popped f : Pc ι).asks = some f) ∧
    (∀ f a, (querying f a : Pc ι).asks = some f) ∧ (∀ r, (got r : Pc ι).asks = none) ∧
    (∀ m, (live m : Pc ι).asks = none) ∧ (∀ m, (exiting m : Pc ι).asks = none) ∧
    (∀ m, (switched m : Pc ι).asks = none) ∧ (∀ m, (disposed m : Pc ι).asks = none) ∧
    (∀ m, (taken m : Pc ι).asks = none) ∧ (∀ m, (recycled m : Pc ι).asks = none) := by
  simp [asks]

@[simp] theorem past_eq :
    (fresh : Pc ι).past = false ∧ (wanting : Pc ι).past = false ∧
    (creating : Pc ι).past = false ∧ (∀ m, (inserting m : Pc ι).past = false) ∧
    (∀ f, (popped f : Pc ι).past = false) ∧ (∀ f a, (querying f a : Pc ι).past = false) ∧
    (∀ r, (got r : Pc ι).past = false) ∧ (∀ m, (live m : Pc ι).past = false) ∧
    (∀ m, (exiting m : Pc ι).past = false) ∧ (∀ m, (switched m : Pc ι).past = false) ∧
    (∀ m, (disposed m : Pc ι).past = true) ∧ (∀ m, (taken m : Pc ι).past = true) ∧
    (∀ m, (recycled m : Pc ι).past = true) := by
  simp [past]

end Pc

structure State (ι : Type*) where
  /-- The chunks `mmap` has returned. -/
  mapped : List Nat
  fiberPool : BinTree FiberMemory
  disposedFiberList : List ι
  pc : ι → Pc ι
  /-- `f.stack_top` of the descriptor `f` in a fiber's `fiber_exit`. -/
  stackTop : ι → Nat
  /-- The fiber that `p.f` names in a fiber's `fiber_exit`. -/
  pair : ι → ι
  /-- Ghost: the fibers that were put in `disposed_fiber_list`, and the stacks that
  `get_available_memory` returned to whom, in order. -/
  recycles : List ι
  handouts : List (ι × FiberMemory)

/-- What is not in the repository: the rebalancing, and the size of a description. -/
structure Platform where
  balance : Balance
  sizeofMem : Nat

/-- The stacks that have been created. -/
def State.Created (c : Platform) (s : State ι) (m : FiberMemory) : Prop :=
  m.addr ∈ s.mapped ∧ m = fiberMemoryCreate c.sizeofMem m.addr

variable [DecidableEq ι]

def State.goto (s : State ι) (i : ι) (p : Pc ι) : State ι :=
  { s with pc := Function.update s.pc i p }

inductive Step (c : Platform) : State ι → State ι → Prop
  | spawn {s} (i : ι) (hpc : s.pc i = .fresh) : Step c s (s.goto i .wanting)
  | empty {s} (i : ι) (hpc : s.pc i = .wanting) (hempty : s.disposedFiberList = []) :
      Step c s (s.goto i .creating)
  /-- `mmap` returns a chunk that overlaps none it returned before. -/
  | create {s} (i : ι) (a : Nat) (hpc : s.pc i = .creating)
      (hfresh : ∀ b ∈ s.mapped, a + stackSize ≤ b ∨ b + stackSize ≤ a) :
      Step c s { s.goto i (.inserting (fiberMemoryCreate c.sizeofMem a)) with
        mapped := s.mapped ++ [a] }
  | insert {s} (i : ι) (m : FiberMemory) (hpc : s.pc i = .inserting m) :
      Step c s { s.goto i (.got (some m)) with
        fiberPool := insertMemory c.balance m s.fiberPool, handouts := s.handouts ++ [(i, m)] }
  | pop {s} (i f : ι) (rest : List ι) (hpc : s.pc i = .wanting)
      (hlist : s.disposedFiberList = f :: rest) :
      Step c s { (s.goto f (s.pc f).take).goto i (.popped f) with disposedFiberList := rest }
  | read {s} (i f : ι) (hpc : s.pc i = .popped f) :
      Step c s (s.goto i (.querying f (s.stackTop f)))
  | query {s} (i f : ι) (a : Nat) (hpc : s.pc i = .querying f a) :
      Step c s { (s.goto f (s.pc f).reuse).goto i (.got (queryMemory a s.fiberPool)) with
        handouts := s.handouts ++ ((queryMemory a s.fiberPool).toList.map fun m => (i, m)) }
  /-- The frame and the descriptor of the new fiber are written. -/
  | start {s} (i : ι) (m : FiberMemory) (hpc : s.pc i = .got (some m)) :
      Step c s (s.goto i (.live m))
  /-- `fiber_exit` takes the context `next` to switch to, and pushes the recycling on it. -/
  | exit {s} (i : ι) (m : FiberMemory) (next : Nat) (hpc : s.pc i = .live m) :
      Step c s { s.goto i (.exiting m) with
        stackTop := Function.update s.stackTop i next, pair := Function.update s.pair i i }
  /-- `fiber_switch` saves the stack pointer, which is on the fiber's own stack. -/
  | switch {s} (i : ι) (m : FiberMemory) (sp : Nat) (hpc : s.pc i = .exiting m)
      (hsp : m.addr ≤ sp ∧ sp < m.stackTop) :
      Step c s { s.goto i (.switched m) with stackTop := Function.update s.stackTop i sp }
  /-- `recycle_fiber_pair`, on the stack switched to. -/
  | recycle {s} (i : ι) (m : FiberMemory) (hpc : s.pc i = .switched m) :
      Step c s { s.goto i (.disposed m) with
        disposedFiberList := s.disposedFiberList ++ [s.pair i]
        recycles := s.recycles ++ [s.pair i] }
  /-- Something is written on the stack `m` of a fiber: what lay there may be lost. -/
  | write {s} (i : ι) (m : FiberMemory) (stackTop : ι → Nat) (pair : ι → ι) (list : List ι)
      (hpc : s.pc i = .got (some m) ∨ s.pc i = .live m)
      (hkeep : ∀ j, (s.pc j).given ≠ some m → stackTop j = s.stackTop j ∧ pair j = s.pair j)
      (hlist : (∀ j ∈ s.disposedFiberList, (s.pc j).given ≠ some m) →
        list = s.disposedFiberList) :
      Step c s { s with stackTop, pair, disposedFiberList := list }

/-- The pool before the first spawn. -/
def State.start (i : ι) : State ι :=
  { mapped := [], fiberPool := .nil, disposedFiberList := [], pc := fun _ => .fresh,
    stackTop := fun _ => 0, pair := fun _ => i, recycles := [], handouts := [] }

/-- The states reached by any interleaving of spawns and exits. -/
abbrev Reached (c : Platform) : State ι → Prop :=
  Reachable (fun s => ∃ i, s = .start i) (Step c)

structure Inv (c : Platform) (s : State ι) : Prop where
  apart : s.fiberPool.inorder.Pairwise Apart
  /-- Every stack that was created belongs to exactly one fiber. -/
  placed : Placed (fun i => (s.pc i).region) (s.Created c)
  /-- The chunks do not overlap. -/
  chunks : ∀ a ∈ s.mapped, ∀ b ∈ s.mapped, a = b ∨ a + stackSize ≤ b ∨ b + stackSize ≤ a
  pooled : ∀ m, m ∈ s.fiberPool.inorder ↔ s.Created c m ∧ ∀ i, s.pc i ≠ .inserting m
  listed : s.disposedFiberList.Nodup ∧ ∀ f, f ∈ s.disposedFiberList ↔ ∃ m, s.pc f = .disposed m
  saved : ∀ f m, (s.pc f = .switched m ∨ s.pc f = .disposed m ∨ s.pc f = .taken m) →
    m.addr ≤ s.stackTop f ∧ s.stackTop f < m.stackTop
  asked : ∀ i f, (s.pc i).asks = some f → ∃ m, s.pc f = .taken m
  sole : ∀ i j f, (s.pc i).asks = some f → (s.pc j).asks = some f → i = j
  read : ∀ i f a, s.pc i = .querying f a → a = s.stackTop f
  pair : ∀ i m, (s.pc i = .exiting m ∨ s.pc i = .switched m) → s.pair i = i
  found : ∀ i, s.pc i ≠ .got none
  recycled : s.recycles.Nodup ∧ ∀ f, f ∈ s.recycles ↔ (s.pc f).past = true
  given : (s.handouts.map Prod.fst).Nodup ∧
    ∀ i m, (i, m) ∈ s.handouts ↔ (s.pc i).given = some m
  order : s.handouts.Pairwise fun p q => p.2 = q.2 → s.pc p.1 = .recycled p.2

variable {c : Platform} {s s' : State ι} {i j f k : ι} {m : FiberMemory}

/-! ## Steps of one fiber -/

namespace Inv

theorem goto_pc (s : State ι) (i k : ι) (p : Pc ι) :
    (s.goto i p).pc k = if k = i then p else s.pc k := by
  simp [State.goto, Function.update_apply]

/-- What does not tell the old counter of a fiber from the new one is as it was. -/
theorem goto_same {α : Type*} (Q : Pc ι → α) {p : Pc ι} (hi : Q p = Q (s.pc i)) (k : ι) :
    Q ((s.goto i p).pc k) = Q (s.pc k) := by
  rw [goto_pc]
  split
  · rename_i hki
    rw [hki, hi]
  · rfl

theorem goto₂_same {α : Type*} (Q : Pc ι → α) {p q : Pc ι} (hfi : f ≠ i)
    (hi : Q p = Q (s.pc i)) (hf : Q q = Q (s.pc f)) (k : ι) :
    Q (((s.goto f q).goto i p).pc k) = Q (s.pc k) := by
  rw [goto_same Q _ k, goto_same Q hf k]
  rwa [goto_pc, if_neg (Ne.symm hfi)]

theorem goto₂_iff (Q : Pc ι → Prop) {p q : Pc ι} (hfi : f ≠ i) (hi : Q p ↔ Q (s.pc i))
    (hf : Q q ↔ Q (s.pc f)) (k : ι) : Q (s.pc k) ↔ Q (((s.goto f q).goto i p).pc k) :=
  iff_of_eq (goto₂_same Q hfi (propext hi) (propext hf) k).symm

/-- Who is where neither of two fibers went was there before. -/
theorem goto₂_eq {p q r : Pc ι} (hk : ((s.goto f q).goto i p).pc k = r) (hp : p ≠ r)
    (hq : q ≠ r) : s.pc k = r := by
  rw [goto_pc] at hk
  split at hk
  · exact absurd hk hp
  · rw [goto_pc] at hk
    split at hk
    · exact absurd hk hq
    · exact hk

/-- **A step of one fiber**: what is left to show when it asks for nobody's stack and is not one
whose stack is asked for. -/
theorem single (h : Inv c s) (i : ι) {p₀ : Pc ι} (h₀ : s.pc i = p₀) (p : Pc ι)
    (hpc : s'.pc = Function.update s.pc i p)
    (hflags : p.asks = p₀.asks ∧ (∀ m, p₀ ≠ .taken m) ∧ p ≠ .got none)
    (hkeep : ∀ k, k ≠ i → s'.stackTop k = s.stackTop k ∧ s'.pair k = s.pair k)
    (hsaved : ∀ m, (p = .switched m ∨ p = .disposed m ∨ p = .taken m) →
      m.addr ≤ s'.stackTop i ∧ s'.stackTop i < m.stackTop)
    (hread : ∀ f a, p = .querying f a → a = s'.stackTop f)
    (hpair : ∀ m, (p = .exiting m ∨ p = .switched m) → s'.pair i = i)
    (apart : s'.fiberPool.inorder.Pairwise Apart)
    (placed : Placed (fun i => (s'.pc i).region) (s'.Created c))
    (chunks : ∀ a ∈ s'.mapped, ∀ b ∈ s'.mapped, a = b ∨ a + stackSize ≤ b ∨ b + stackSize ≤ a)
    (pooled : ∀ m, m ∈ s'.fiberPool.inorder ↔ s'.Created c m ∧ ∀ i, s'.pc i ≠ .inserting m)
    (listed : s'.disposedFiberList.Nodup ∧
      ∀ f, f ∈ s'.disposedFiberList ↔ ∃ m, s'.pc f = .disposed m)
    (recycled : s'.recycles.Nodup ∧ ∀ f, f ∈ s'.recycles ↔ (s'.pc f).past = true)
    (given : (s'.handouts.map Prod.fst).Nodup ∧
      ∀ i m, (i, m) ∈ s'.handouts ↔ (s'.pc i).given = some m)
    (order : s'.handouts.Pairwise fun p q => p.2 = q.2 → s'.pc p.1 = .recycled p.2) :
    Inv c s' := by
  obtain ⟨hasks, htaken, hgot⟩ := hflags
  have hk : ∀ k, k ≠ i → s'.pc k = s.pc k := fun k hk => by rw [hpc, Function.update_of_ne hk]
  have hi : s'.pc i = p := by rw [hpc, Function.update_self]
  have hask : ∀ k, (s'.pc k).asks = (s.pc k).asks := fun k => by
    by_cases he : k = i
    · rw [he, hi, hasks, h₀]
    · rw [hk k he]
  have hne : ∀ {k f}, (s.pc k).asks = some f → f ≠ i := fun {k f} hf he => by
    obtain ⟨m, hm⟩ := h.asked k f hf
    exact htaken m (h₀.symm.trans (he ▸ hm))
  exact {
    apart
    placed
    chunks
    pooled
    listed
    recycled
    given
    order
    saved := fun f m hf => by
      by_cases he : f = i
      · rw [he, hi] at hf
        exact he ▸ hsaved m hf
      · rw [(hkeep f he).1]
        exact h.saved f m (hk f he ▸ hf)
    asked := fun k f hf => by
      rw [hask] at hf
      obtain ⟨m, hm⟩ := h.asked k f hf
      exact ⟨m, (hk f (hne hf)).trans hm⟩
    sole := fun k j f hf hj => h.sole k j f (hask k ▸ hf) (hask j ▸ hj)
    read := fun k f a hf => by
      by_cases he : k = i
      · exact hread f a (hi ▸ he ▸ hf)
      · rw [hk k he] at hf
        rw [(hkeep f (hne (k := k) (by simp [hf]))).1]
        exact h.read k f a hf
    pair := fun k m hf => by
      by_cases he : k = i
      · rw [he, hi] at hf
        exact he ▸ hpair m hf
      · rw [(hkeep k he).2]
        exact h.pair k m (hk k he ▸ hf)
    found := fun k hf => by
      by_cases he : k = i
      · exact hgot (hi ▸ he ▸ hf)
      · exact h.found k (hk k he ▸ hf) }

/-- A step of one fiber that keeps its stack and is not about the lists. -/
theorem solo (h : Inv c s) (i : ι) {p₀ : Pc ι} (h₀ : s.pc i = p₀) (p : Pc ι)
    (hpc : s'.pc = Function.update s.pc i p)
    (hsame : s'.mapped = s.mapped ∧ s'.fiberPool = s.fiberPool ∧
      s'.disposedFiberList = s.disposedFiberList ∧ s'.recycles = s.recycles ∧
      s'.handouts = s.handouts)
    (hflags : p.region = p₀.region ∧ p.given = p₀.given ∧ p.asks = p₀.asks ∧ p.past = false ∧
      p₀.past = false ∧ (∀ m, p ≠ .inserting m ∧ p₀ ≠ .inserting m) ∧ p ≠ .got none)
    (hkeep : ∀ k, k ≠ i → s'.stackTop k = s.stackTop k ∧ s'.pair k = s.pair k)
    (hsaved : ∀ m, p = .switched m → m.addr ≤ s'.stackTop i ∧ s'.stackTop i < m.stackTop)
    (hread : ∀ f a, p = .querying f a → a = s'.stackTop f)
    (hpair : ∀ m, (p = .exiting m ∨ p = .switched m) → s'.pair i = i) : Inv c s' := by
  obtain ⟨hmap, hpool, hlist, hrec, hhand⟩ := hsame
  obtain ⟨hreg, hgiv, hasks, hp, hp₀, hins, hgot⟩ := hflags
  have hk : ∀ k, k ≠ i → s'.pc k = s.pc k := fun k hk => by rw [hpc, Function.update_of_ne hk]
  have hi : s'.pc i = p := by rw [hpc, Function.update_self]
  have hnot : ∀ {q : Pc ι}, q.past = true → (s'.pc i ≠ q ∧ s.pc i ≠ q) := fun {q} hq => by
    constructor
    · rintro rfl
      simp [hi, hp] at hq
    · rintro rfl
      simp [h₀, hp₀] at hq
  have hpast : ∀ {q : Pc ι} k, q.past = true → (s'.pc k = q ↔ s.pc k = q) := fun {q} k hq => by
    by_cases he : k = i
    · rw [he]
      exact iff_of_false (hnot hq).1 (hnot hq).2
    · rw [hk k he]
  have hcre : s'.Created c = s.Created c := by funext m; rw [State.Created, hmap]; rfl
  refine h.single i h₀ p hpc ⟨hasks, fun m he => by simp [he] at hp₀, hgot⟩ hkeep
    (fun m hm => ?_) hread hpair (hpool ▸ h.apart) ?_ (hmap ▸ h.chunks) (fun m => ?_) ?_ ?_ ?_ ?_
  · rcases hm with hm | hm | hm
    · exact hsaved m hm
    · simp [hm] at hp
    · simp [hm] at hp
  · rw [hcre]
    refine h.placed.shift (fun k => ?_) fun _ => Iff.rfl
    by_cases he : k = i
    · rw [he, hi, hreg, h₀]
    · rw [hk k he]
  · rw [hpool, hcre, h.pooled]
    refine and_congr_right fun _ => forall_congr' fun k => not_congr ?_
    by_cases he : k = i
    · rw [he, hi, h₀]
      exact iff_of_false (hins m).2 (hins m).1
    · rw [hk k he]
  · rw [hlist]
    refine ⟨h.listed.1, fun f => ?_⟩
    rw [h.listed.2]
    exact exists_congr fun m => (hpast f (by simp)).symm
  · rw [hrec]
    refine ⟨h.recycled.1, fun f => ?_⟩
    rw [h.recycled.2]
    by_cases he : f = i
    · rw [he, hi, h₀, hp, hp₀]
    · rw [hk f he]
  · rw [hhand]
    refine ⟨h.given.1, fun k m => ?_⟩
    rw [h.given.2]
    by_cases he : k = i
    · rw [he, hi, hgiv, h₀]
    · rw [hk k he]
  · rw [hhand]
    exact h.order.imp fun {p q} ho he => (hpast p.1 (by simp)).2 (ho he)

omit [DecidableEq ι] in
theorem region_unique (h : Inv c s) (hi : m ∈ (s.pc i).region) (hj : m ∈ (s.pc j).region) :
    i = j :=
  h.placed.place_unique hi hj

omit [DecidableEq ι] in
/-- Who was given a stack has it still, unless it has been handed on. -/
theorem region_of_given {q : Pc ι} (hq : q.given = some m) : m ∈ q.region ∨ q = .recycled m := by
  cases q with
  | got r => cases r <;> simp_all
  | _ => simp_all

omit [DecidableEq ι] in
/-- Something is written on a stack whose fiber is not exiting. -/
theorem write (h : Inv c s) {stackTop : ι → Nat} {pair : ι → ι} {list : List ι}
    (hpc : s.pc i = .got (some m) ∨ s.pc i = .live m)
    (hkeep : ∀ j, (s.pc j).given ≠ some m → stackTop j = s.stackTop j ∧ pair j = s.pair j)
    (hlist : (∀ j ∈ s.disposedFiberList, (s.pc j).given ≠ some m) →
      list = s.disposedFiberList) :
    Inv c { s with stackTop, pair, disposedFiberList := list } := by
  have hi : m ∈ (s.pc i).region := by rcases hpc with hp | hp <;> simp [hp]
  -- nobody who is exiting or disposed has left anything on that stack
  have hne : ∀ {k m'}, (s.pc k = .exiting m' ∨ s.pc k = .switched m' ∨ s.pc k = .disposed m' ∨
      s.pc k = .taken m') → (s.pc k).given ≠ some m := fun {k m'} hk hm => by
    have hkm : m' = m := by rcases hk with hk | hk | hk | hk <;> simpa [hk] using hm
    have hik := h.region_unique hi (j := k) (by
      rcases hk with hk | hk | hk | hk <;> simp [hk, hkm])
    subst hik
    rcases hpc with hp | hp <;> rcases hk with hk | hk | hk | hk <;> rw [hp] at hk <;> cases hk
  have hlist' : list = s.disposedFiberList := hlist fun j hj => by
    obtain ⟨m', hm'⟩ := (h.listed.2 j).1 hj
    exact hne (.inr (.inr (.inl hm')))
  subst hlist'
  have hsaved : ∀ f m', (s.pc f = .switched m' ∨ s.pc f = .disposed m' ∨ s.pc f = .taken m') →
      m'.addr ≤ stackTop f ∧ stackTop f < m'.stackTop := fun f m' hf => by
    rw [(hkeep f (hne (.inr hf))).1]
    exact h.saved f m' hf
  have hread : ∀ k f a, s.pc k = .querying f a → a = stackTop f := fun k f a hk => by
    obtain ⟨m', hm'⟩ := h.asked k f (by simp [hk])
    rw [(hkeep f (hne (.inr (.inr (.inr hm'))))).1]
    exact h.read k f a hk
  have hpair : ∀ k m', (s.pc k = .exiting m' ∨ s.pc k = .switched m') → pair k = k :=
    fun k m' hk => by
      rw [(hkeep k (hne (hk.imp id .inl))).2]
      exact h.pair k m' hk
  exact { h with saved := hsaved, read := hread, pair := hpair }

/-- `mmap` returns a fresh chunk. -/
theorem create (h : Inv c s) {a : Nat} (hpc : s.pc i = .creating)
    (hfresh : ∀ b ∈ s.mapped, a + stackSize ≤ b ∨ b + stackSize ≤ a) :
    Inv c { s.goto i (.inserting (fiberMemoryCreate c.sizeofMem a)) with
      mapped := s.mapped ++ [a] } := by
  have ha : a ∉ s.mapped := fun hm => by
    have := hfresh a hm
    simp only [stackSize] at this
    omega
  have hnew : ¬ s.Created c (fiberMemoryCreate c.sizeofMem a) := fun hc => ha hc.1
  refine h.single i hpc (.inserting (fiberMemoryCreate c.sizeofMem a)) rfl (by simp)
    (fun _ _ => ⟨rfl, rfl⟩) (by simp) (by simp) (by simp) h.apart ?_ (fun b hb b' hb' => ?_)
    (fun m => ?_) ?_ ?_ ?_ ?_
  · refine h.placed.born (x := fiberMemoryCreate c.sizeofMem a) (p := i) hnew ?_ (fun k hk => ?_)
      fun m => ?_
    · simp [goto_pc, hpc]
    · simp [goto_pc, hk]
    · simp only [State.Created, List.mem_append, List.mem_singleton]
      constructor
      · rintro ⟨hm | hm, he⟩
        · exact .inr ⟨hm, he⟩
        · exact .inl (hm ▸ he)
      · rintro (rfl | ⟨hm, he⟩)
        · exact ⟨.inr rfl, rfl⟩
        · exact ⟨.inl hm, he⟩
  · rcases List.mem_append.1 hb with hb | hb <;> rcases List.mem_append.1 hb' with hb' | hb'
    · exact h.chunks b hb b' hb'
    · rw [List.mem_singleton.1 hb']
      exact .inr (hfresh b hb).symm
    · rw [List.mem_singleton.1 hb]
      exact .inr (hfresh b' hb')
    · exact .inl ((List.mem_singleton.1 hb).trans (List.mem_singleton.1 hb').symm)
  · refine (h.pooled m).trans ⟨fun ⟨hc, hm⟩ => ⟨⟨List.mem_append_left _ hc.1, hc.2⟩,
      fun k hk => ?_⟩, fun ⟨hc, hm⟩ => ?_⟩
    · rw [goto_pc] at hk
      split at hk
      · obtain rfl := Pc.inserting.inj hk
        exact hnew hc
      · exact hm k hk
    · rcases List.mem_append.1 hc.1 with hcm | hcm
      · refine ⟨⟨hcm, hc.2⟩, fun k hk => ?_⟩
        have hki : k ≠ i := fun he => by simp [he, hpc] at hk
        exact hm k (by rw [goto_pc, if_neg hki, hk])
      · refine absurd ?_ (hm i)
        rw [goto_pc, if_pos rfl, hc.2, List.mem_singleton.1 hcm]
  · refine ⟨h.listed.1, fun f => (h.listed.2 f).trans (exists_congr fun m => ?_)⟩
    by_cases he : f = i <;> simp [goto_pc, he, hpc]
  · refine ⟨h.recycled.1, fun f => (h.recycled.2 f).trans ?_⟩
    by_cases he : f = i <;> simp [goto_pc, he, hpc]
  · refine ⟨h.given.1, fun k m => (h.given.2 k m).trans ?_⟩
    by_cases he : k = i <;> simp [goto_pc, he, hpc]
  · refine h.order.imp fun {p q} ho he => ?_
    have hp := ho he
    rw [goto_pc, if_neg fun (he : p.1 = i) => by simp [he, hpc] at hp, hp]

omit [DecidableEq ι] in
/-- A stack in the pool is not about to be inserted. -/
theorem notMem_pool (h : Inv c s) (hi : s.pc i = .inserting m) : m ∉ s.fiberPool.inorder :=
  fun hm => ((h.pooled m).1 hm).2 i hi

omit [DecidableEq ι] in
/-- A stack is handed out, when all that had it before have been recycled. -/
theorem handOut {u : State ι} (h : Inv c s) (hi : (s.pc i).given = none)
    (hi' : (u.pc i).given = some m)
    (hk : ∀ k, k ≠ i → (u.pc k).given = (s.pc k).given)
    (hrec : ∀ k m', s.pc k = .recycled m' → u.pc k = .recycled m')
    (hold : ∀ k, (s.pc k).given = some m → u.pc k = .recycled m) :
    ((s.handouts ++ [(i, m)]).map Prod.fst).Nodup ∧
      (∀ k m', (k, m') ∈ s.handouts ++ [(i, m)] ↔ (u.pc k).given = some m') ∧
      (s.handouts ++ [(i, m)]).Pairwise fun p q => p.2 = q.2 → u.pc p.1 = .recycled p.2 := by
  have hnot : ∀ m', (i, m') ∉ s.handouts := fun m' hm => by
    rw [h.given.2, hi] at hm
    cases hm
  refine ⟨?_, fun k m' => ?_, ?_⟩
  · rw [List.map_append]
    refine List.nodup_append.2 ⟨h.given.1, by simp, fun a ha b hb => ?_⟩
    obtain ⟨p, hp, rfl⟩ := List.mem_map.1 ha
    rintro he
    obtain rfl : p.1 = i := he.trans (List.mem_singleton.1 hb)
    exact hnot p.2 hp
  · rw [List.mem_append, h.given.2]
    by_cases he : k = i
    · rw [he, hi, hi']
      simp [eq_comm]
    · simp [hk k he, he]
  · refine List.pairwise_append.2 ⟨h.order.imp fun {p q} ho he => hrec _ _ (ho he), by simp,
      fun p hp q hq he => ?_⟩
    obtain rfl : p.2 = m := by rwa [List.mem_singleton.1 hq] at he
    exact hold p.1 ((h.given.2 p.1 p.2).1 hp)

/-- The new stack is inserted in the pool. -/
theorem insert (h : Inv c s) (hpc : s.pc i = .inserting m) :
    Inv c { s.goto i (.got (some m)) with
      fiberPool := insertMemory c.balance m s.fiberPool, handouts := s.handouts ++ [(i, m)] } := by
  have hm : s.Created c m := h.placed.live_of_mem (p := i) (by simp [hpc])
  have hother : ∀ k, k ≠ i → m ∉ (s.pc k).region := fun k hk hmk =>
    hk (h.region_unique hmk (by simp [hpc]))
  have hnew : ∀ m' ∈ s.fiberPool.inorder, Apart m' m ∨ Apart m m' := fun m' hm' => by
    have hc := ((h.pooled m').1 hm').1
    have ht := create_top_le c.sizeofMem m.addr
    have ht' := create_top_le c.sizeofMem m'.addr
    rw [← hm.2] at ht
    rw [← hc.2] at ht'
    simp only [Apart]
    rcases h.chunks m'.addr hc.1 m.addr hm.1 with he | he | he
    · rw [hc.2, he, ← hm.2] at hm'
      exact absurd hm' (h.notMem_pool hpc)
    · exact .inl ⟨by simp only [stackSize] at he; omega, by omega⟩
    · exact .inr ⟨by simp only [stackSize] at he; omega, by omega⟩
  obtain ⟨xs, ys, he, hins, hap⟩ := insertMemory_spec c.balance h.apart hnew
  have hpool : ∀ m', m' ∈ (insertMemory c.balance m s.fiberPool).inorder ↔
      m' = m ∨ m' ∈ s.fiberPool.inorder := fun m' => by
    rw [hins, he]
    simp only [List.mem_append, List.mem_cons]
    tauto
  obtain ⟨h1, h2, h3⟩ := h.handOut (u := s.goto i (.got (some m))) (i := i) (m := m)
    (by simp [hpc]) (by simp [goto_pc]) (fun k hk => by rw [goto_pc, if_neg hk])
    (fun k m' hk => by
      rw [goto_pc, if_neg fun he => by simp [he, hpc] at hk]
      exact hk)
    fun k hk => by
      have hki : k ≠ i := fun he => by simp [he, hpc] at hk
      rw [goto_pc, if_neg hki]
      exact (region_of_given hk).resolve_left (hother k hki)
  refine h.single i hpc (.got (some m)) rfl (by simp) (fun _ _ => ⟨rfl, rfl⟩) (by simp) (by simp)
    (by simp) (hins ▸ hap) ?_ h.chunks (fun m' => (hpool m').trans ?_) ?_ ?_ ⟨h1, h2⟩ h3
  · refine h.placed.shift (fun k => ?_) fun _ => Iff.rfl
    by_cases hk : k = i <;> simp [goto_pc, hk, hpc]
  · rw [h.pooled]
    constructor
    · rintro (rfl | ⟨hc, hn⟩)
      · refine ⟨hm, fun k hk => ?_⟩
        by_cases hki : k = i
        · simp [goto_pc, hki] at hk
        · rw [goto_pc, if_neg hki] at hk
          exact hother k hki (by simp [hk])
      · refine ⟨hc, fun k hk => ?_⟩
        by_cases hki : k = i
        · simp [goto_pc, hki] at hk
        · rw [goto_pc, if_neg hki] at hk
          exact hn k hk
    · rintro ⟨hc, hn⟩
      by_cases hmm : m' = m
      · exact .inl hmm
      · refine .inr ⟨hc, fun k hk => ?_⟩
        by_cases hki : k = i
        · rw [hki, hpc] at hk
          exact hmm (Pc.inserting.inj hk).symm
        · exact hn k (by rw [goto_pc, if_neg hki, hk])
  · refine ⟨h.listed.1, fun f => (h.listed.2 f).trans (exists_congr fun m => ?_)⟩
    by_cases hf : f = i <;> simp [goto_pc, hf, hpc]
  · refine ⟨h.recycled.1, fun f => (h.recycled.2 f).trans ?_⟩
    by_cases hf : f = i <;> simp [goto_pc, hf, hpc]

/-- The deferred operation of an exit puts the fiber in `disposed_fiber_list`. -/
theorem recycle (h : Inv c s) (hpc : s.pc i = .switched m) :
    Inv c { s.goto i (.disposed m) with
      disposedFiberList := s.disposedFiberList ++ [s.pair i]
      recycles := s.recycles ++ [s.pair i] } := by
  rw [h.pair i m (.inr hpc)]
  have hlist : i ∉ s.disposedFiberList := fun hi => by
    obtain ⟨m', hm'⟩ := (h.listed.2 i).1 hi
    simp [hpc] at hm'
  have hrec : i ∉ s.recycles := fun hi => by
    have := (h.recycled.2 i).1 hi
    simp [hpc] at this
  refine h.single i hpc (.disposed m) rfl (by simp) (fun _ _ => ⟨rfl, rfl⟩) (fun m' hm' => ?_)
    (by simp) (by simp) h.apart ?_ h.chunks (fun m' => (h.pooled m').trans ?_) ⟨?_, fun f => ?_⟩
    ⟨?_, fun f => ?_⟩ ⟨h.given.1, fun k m' => (h.given.2 k m').trans ?_⟩ ?_
  · obtain rfl : m = m' := by simpa using hm'
    exact h.saved i m (.inl hpc)
  · refine h.placed.shift (fun k => ?_) fun _ => Iff.rfl
    by_cases hk : k = i <;> simp [goto_pc, hk, hpc]
  · refine and_congr_right fun _ => forall_congr' fun k => not_congr ?_
    by_cases hk : k = i <;> simp [goto_pc, hk, hpc]
  · exact List.nodup_append.2 ⟨h.listed.1, by simp, fun a ha b hb he =>
      hlist (List.mem_singleton.1 hb ▸ he ▸ ha)⟩
  · rw [List.mem_append, h.listed.2]
    by_cases hf : f = i <;> simp [goto_pc, hf]
  · exact List.nodup_append.2 ⟨h.recycled.1, by simp, fun a ha b hb he =>
      hrec (List.mem_singleton.1 hb ▸ he ▸ ha)⟩
  · rw [List.mem_append, h.recycled.2]
    by_cases hf : f = i <;> simp [goto_pc, hf]
  · by_cases hk : k = i <;> simp [goto_pc, hk, hpc]
  · refine h.order.imp fun {p q} ho he => ?_
    have hp := ho he
    rw [goto_pc, if_neg fun (he : p.1 = i) => by simp [he, hpc] at hp, hp]

/-- A disposed fiber is popped by a call that needs a stack. -/
theorem pop (h : Inv c s) {rest : List ι} (hpc : s.pc i = .wanting)
    (hlist : s.disposedFiberList = f :: rest) :
    Inv c { (s.goto f (s.pc f).take).goto i (.popped f) with disposedFiberList := rest } := by
  obtain ⟨m, hm⟩ := (h.listed.2 f).1 (by simp [hlist])
  have hfi : f ≠ i := fun he => by simp [he, hpc] at hm
  have hnd : f ∉ rest ∧ rest.Nodup := List.nodup_cons.1 (hlist ▸ h.listed.1)
  rw [hm, Pc.take]
  have hk : ∀ k, ((s.goto f (.taken m)).goto i (.popped f)).pc k =
      if k = i then .popped f else if k = f then .taken m else s.pc k := fun k => by
    rw [goto_pc, goto_pc]
  have hmem : ∀ g, (g = f ∨ g ∈ rest) ↔ ∃ m, s.pc g = .disposed m := fun g => by
    rw [← h.listed.2, hlist, List.mem_cons]
  have hask : ∀ k g, (((s.goto f (.taken m)).goto i (.popped f)).pc k).asks = some g →
      k = i ∧ g = f ∨ g ≠ f ∧ (s.pc k).asks = some g := fun k g hg => by
    simp only [hk] at hg
    by_cases h1 : k = i
    · exact .inl ⟨h1, by simpa [h1, eq_comm] using hg⟩
    · have hg' : (s.pc k).asks = some g := by
        by_cases h2 : k = f <;> simp_all
      refine .inr ⟨fun he => ?_, hg'⟩
      obtain ⟨m', hm'⟩ := h.asked k g hg'
      simp [he, hm] at hm'
  exact {
    apart := h.apart
    chunks := h.chunks
    recycled := ⟨h.recycled.1, fun g => (h.recycled.2 g).trans
      (goto₂_iff (·.past = true) hfi (by simp [hpc]) (by simp [hm]) g)⟩
    placed := h.placed.shift (fun k =>
      .of_eq (goto₂_same Pc.region hfi (by simp [hpc]) (by simp [hm]) k)) fun _ => Iff.rfl
    pooled := fun m' => (h.pooled m').trans (and_congr_right fun _ => forall_congr'
      (goto₂_iff (· ≠ .inserting m') hfi (by simp [hpc]) (by simp [hm])))
    listed := ⟨hnd.2, fun g => by
      simp only [hk]
      by_cases h1 : g = i
      · have := hmem i
        simp only [hpc, reduceCtorEq, exists_false, iff_false, not_or] at this
        simp [h1, this.2]
      · by_cases h2 : g = f
        · simp [h2, hfi, hnd.1]
        · have := hmem g
          simp only [h2, false_or] at this
          simp [h1, h2, this]⟩
    saved := fun g m' hg => by
      refine h.saved g m' ?_
      rcases hg with hg | hg | hg
      · exact .inl (goto₂_eq hg (by simp) (by simp))
      · exact .inr (.inl (goto₂_eq hg (by simp) (by simp)))
      · by_cases h1 : g = f
        · rw [h1] at hg ⊢
          rw [hk, if_neg hfi, if_pos rfl] at hg
          exact .inr (.inl (Pc.taken.inj hg ▸ hm))
        · have hgi : g ≠ i := fun he => by simp [hk, he] at hg
          rw [hk, if_neg hgi, if_neg h1] at hg
          exact .inr (.inr hg)
    asked := fun k g hg => by
      rcases hask k g hg with ⟨-, rfl⟩ | ⟨hgf, hg⟩
      · exact ⟨m, by simp [hk, hfi]⟩
      · obtain ⟨m', hm'⟩ := h.asked k g hg
        exact ⟨m', by rw [hk, if_neg fun he => by simp [he, hpc] at hm', if_neg hgf, hm']⟩
    sole := fun k j g hg hj => by
      rcases hask k g hg with ⟨rfl, rfl⟩ | ⟨hgf, hg⟩ <;>
        rcases hask j g hj with ⟨rfl, h2⟩ | ⟨h2, hj⟩
      · rfl
      · exact absurd rfl h2
      · exact absurd h2 hgf
      · exact h.sole k j g hg hj
    read := fun k g a hg => h.read k g a (goto₂_eq hg (by simp) (by simp))
    pair := fun k m' hg => h.pair k m' (by
      rcases hg with hg | hg
      · exact .inl (goto₂_eq hg (by simp) (by simp))
      · exact .inr (goto₂_eq hg (by simp) (by simp)))
    found := fun k hg => h.found k (goto₂_eq hg (by simp) (by simp))
    given := ⟨h.given.1, fun k m' => (h.given.2 k m').trans
      (goto₂_iff (·.given = some m') hfi (by simp [hpc]) (by simp [hm]) k)⟩
    order := h.order.imp fun {p q} ho he => by
      have hp := ho he
      rw [hk, if_neg fun (he : p.1 = i) => by simp [he, hpc] at hp,
        if_neg fun (he : p.1 = f) => by simp [he, hm] at hp, hp] }

omit [DecidableEq ι] in
/-- **The search of the pool** finds the stack of the popped fiber. -/
theorem query_eq (h : Inv c s) {a : Nat} (hpc : s.pc i = .querying f a) :
    ∃ m, s.pc f = .taken m ∧ queryMemory a s.fiberPool = some m := by
  obtain ⟨m, hm⟩ := h.asked i f (by simp [hpc])
  refine ⟨m, hm, queryMemory_mem h.apart ((h.pooled m).2 ⟨?_, fun k hk => ?_⟩) ?_⟩
  · exact h.placed.live_of_mem (p := f) (by simp [hm])
  · have hkf := h.region_unique (m := m) (i := k) (j := f) (by simp [hk]) (by simp [hm])
    simp [hkf, hm] at hk
  · rw [h.read i f a hpc]
    exact h.saved f m (.inr (.inr hm))

/-- The stack of the popped fiber is handed out. -/
theorem query (h : Inv c s) {a : Nat} (hpc : s.pc i = .querying f a) :
    Inv c { (s.goto f (s.pc f).reuse).goto i (.got (queryMemory a s.fiberPool)) with
      handouts := s.handouts ++ ((queryMemory a s.fiberPool).toList.map fun m => (i, m)) } := by
  obtain ⟨m, hm, hq⟩ := h.query_eq hpc
  have hfi : f ≠ i := fun he => by simp [he, hpc] at hm
  rw [hm, hq, Pc.reuse]
  have hk : ∀ k, ((s.goto f (.recycled m)).goto i (.got (some m))).pc k =
      if k = i then .got (some m) else if k = f then .recycled m else s.pc k := fun k => by
    rw [goto_pc, goto_pc]
  have hask : ∀ k g, (((s.goto f (.recycled m)).goto i (.got (some m))).pc k).asks = some g →
      g ≠ f ∧ (s.pc k).asks = some g := fun k g hg => by
    simp only [hk] at hg
    by_cases h1 : k = i
    · simp [h1] at hg
    · have hg' : (s.pc k).asks = some g := by
        by_cases h2 : k = f <;> simp_all
      exact ⟨fun he => h1 (h.sole k i g hg' (by simp [hpc, he])), hg'⟩
  obtain ⟨h1, h2, h3⟩ := h.handOut (u := (s.goto f (.recycled m)).goto i (.got (some m)))
    (i := i) (m := m) (by simp [hpc]) (by simp [hk])
    (fun k hki => by by_cases h2 : k = f <;> simp [hk, hki, h2, hm, hfi])
    (fun k m' hr => by
      rw [hk, if_neg fun he => by simp [he, hpc] at hr,
        if_neg fun he => by simp [he, hm] at hr, hr])
    fun k hg => by
      have hki : k ≠ i := fun he => by simp [he, hpc] at hg
      rw [hk, if_neg hki]
      split
      · rfl
      · rename_i hkf
        exact (region_of_given hg).resolve_left fun hr => hkf (h.region_unique hr (by simp [hm]))
  exact {
    apart := h.apart
    chunks := h.chunks
    given := ⟨h1, h2⟩
    order := h3
    recycled := ⟨h.recycled.1, fun g => (h.recycled.2 g).trans
      (goto₂_iff (·.past = true) hfi (by simp [hpc]) (by simp [hm]) g)⟩
    placed := by
      refine h.placed.move hfi ?_ (fun k hkf hki => ?_) fun _ => Iff.rfl
      · simp [hk, hfi, hm, hpc]
      · simp [hk, hkf, hki]
    pooled := fun m' => (h.pooled m').trans (and_congr_right fun _ => forall_congr'
      (goto₂_iff (· ≠ .inserting m') hfi (by simp [hpc]) (by simp [hm])))
    listed := ⟨h.listed.1, fun g => (h.listed.2 g).trans (exists_congr fun m' =>
      goto₂_iff (· = .disposed m') hfi (by simp [hpc]) (by simp [hm]) g)⟩
    saved := fun g m' hg => h.saved g m' (by
      rcases hg with hg | hg | hg
      · exact .inl (goto₂_eq hg (by simp) (by simp))
      · exact .inr (.inl (goto₂_eq hg (by simp) (by simp)))
      · exact .inr (.inr (goto₂_eq hg (by simp) (by simp))))
    asked := fun k g hg => by
      obtain ⟨hgf, hg⟩ := hask k g hg
      obtain ⟨m', hm'⟩ := h.asked k g hg
      exact ⟨m', by rw [hk, if_neg fun he => by simp [he, hpc] at hm', if_neg hgf, hm']⟩
    sole := fun k j g hg hj => h.sole k j g (hask k g hg).2 (hask j g hj).2
    read := fun k g a hg => h.read k g a (goto₂_eq hg (by simp) (by simp))
    pair := fun k m' hg => h.pair k m' (by
      rcases hg with hg | hg
      · exact .inl (goto₂_eq hg (by simp) (by simp))
      · exact .inr (goto₂_eq hg (by simp) (by simp)))
    found := fun k hg => h.found k (goto₂_eq hg (by simp) (by simp)) }

/-! ## Runs -/

omit [DecidableEq ι] in
/-- Before the first spawn. -/
theorem start (c : Platform) (i : ι) : Inv c (.start i) where
  apart := .nil
  placed := .empty (fun k => by simp [State.start]) fun m hm => by cases hm.1
  chunks a ha := by cases ha
  pooled m := iff_of_false (by simp [State.start]) fun hm => by cases hm.1.1
  listed := ⟨List.nodup_nil, fun f => by simp [State.start]⟩
  saved f m hf := by simp [State.start] at hf
  asked k f hf := by simp [State.start] at hf
  sole k j f hf := by simp [State.start] at hf
  read k f a hf := by simp [State.start] at hf
  pair k m hf := by simp [State.start] at hf
  found k hf := by simp [State.start] at hf
  recycled := ⟨List.nodup_nil, fun f => by simp [State.start]⟩
  given := ⟨List.nodup_nil, fun k m => by simp [State.start]⟩
  order := .nil

/-- **Every step keeps the invariant.** -/
theorem step (h : Inv c s) (hs : Step c s s') : Inv c s' := by
  cases hs with
  | spawn i hpc =>
    exact h.solo i hpc .wanting rfl ⟨rfl, rfl, rfl, rfl, rfl⟩ (by simp) (fun _ _ => ⟨rfl, rfl⟩)
      (by simp) (by simp) (by simp)
  | empty i hpc =>
    exact h.solo i hpc .creating rfl ⟨rfl, rfl, rfl, rfl, rfl⟩ (by simp) (fun _ _ => ⟨rfl, rfl⟩)
      (by simp) (by simp) (by simp)
  | create i a hpc hfresh => exact h.create hpc hfresh
  | insert i m hpc => exact h.insert hpc
  | pop i f rest hpc hlist => exact h.pop hpc hlist
  | read i f hpc =>
    refine h.solo i hpc (.querying f (s.stackTop f)) rfl ⟨rfl, rfl, rfl, rfl, rfl⟩ (by simp)
      (fun _ _ => ⟨rfl, rfl⟩) (by simp) (fun g a hg => ?_) (by simp)
    obtain ⟨rfl, rfl⟩ := Pc.querying.inj hg
    rfl
  | query i f a hpc => exact h.query hpc
  | start i m hpc =>
    exact h.solo i hpc (.live m) rfl ⟨rfl, rfl, rfl, rfl, rfl⟩ (by simp) (fun _ _ => ⟨rfl, rfl⟩)
      (by simp) (by simp) (by simp)
  | exit i m next hpc =>
    exact h.solo i hpc (.exiting m) rfl ⟨rfl, rfl, rfl, rfl, rfl⟩ (by simp)
      (fun k hk => ⟨Function.update_of_ne hk .., Function.update_of_ne hk ..⟩) (by simp) (by simp)
      fun _ _ => Function.update_self ..
  | switch i m sp hpc hsp =>
    refine h.solo i hpc (.switched m) rfl ⟨rfl, rfl, rfl, rfl, rfl⟩ (by simp)
      (fun k hk => ⟨Function.update_of_ne hk .., rfl⟩) (fun m' hm' => ?_) (by simp)
      fun _ _ => h.pair i m (.inl hpc)
    obtain rfl := Pc.switched.inj hm'
    simpa using hsp
  | recycle i m hpc => exact h.recycle hpc
  | write i m stackTop pair list hpc hkeep hlist => exact h.write hpc hkeep hlist

end Inv

theorem Reached.inv (h : Reached c s) : Inv c s :=
  h.invariant (J := Inv c) (by rintro _ ⟨i, rfl⟩; exact .start c i) fun _ _ => Inv.step

/-- **Stack regions are never shared.** In every state reached by any interleaving of spawns and
exits:

* no two fibers have the same stack, a stack that somebody has is in the pool from its insertion
  on, and the stacks of two fibers do not overlap;
* a stack is handed out again only when the fiber that had it has been recycled, by the deferred
  operation of its exit, which happens once for every fiber;
* the pool holds each created stack once, as soon as it has been inserted;
* `get_available_memory` has not returned `NULL` to anybody, and will not: the search for the saved
  `stack_top` of a popped fiber finds the stack of that fiber. -/
theorem stacks_unshared (h : Reached c s) :
    ((∀ i j m, m ∈ (s.pc i).region → m ∈ (s.pc j).region → i = j) ∧
      (∀ i m, m ∈ (s.pc i).region → s.pc i ≠ .inserting m → m ∈ s.fiberPool.inorder) ∧
      ∀ m ∈ s.fiberPool.inorder, ∀ m' ∈ s.fiberPool.inorder, m = m' ∨
        m.stackTop ≤ m'.addr ∨ m'.stackTop ≤ m.addr) ∧
    (s.handouts.Pairwise fun p q => p.2 = q.2 → s.pc p.1 = .recycled p.2 ∧ p.1 ∈ s.recycles) ∧
    (s.recycles.Nodup ∧ ∀ f, f ∈ s.recycles ↔ (s.pc f).past = true) ∧
    (s.fiberPool.inorder.Nodup ∧ ∀ m, m ∈ s.fiberPool.inorder ↔
      s.Created c m ∧ ∀ i, s.pc i ≠ .inserting m) ∧
    (∀ i, s.pc i ≠ .got none) ∧
    ∀ i f a, s.pc i = .querying f a →
      ∃ m, s.pc f = .taken m ∧ queryMemory a s.fiberPool = some m := by
  have hI := h.inv
  refine ⟨⟨fun i j m => hI.region_unique, fun i m hm hn => ?_, fun m hm m' hm' => ?_⟩,
    hI.order.imp fun {p q} ho he => ?_, hI.recycled, ⟨nodup_of_apart hI.apart, hI.pooled⟩,
    hI.found, fun i f a => hI.query_eq⟩
  · refine (hI.pooled m).2 ⟨hI.placed.live_of_mem hm, fun k hk => hn ?_⟩
    rw [hI.region_unique hm (j := k) (by simp [hk]), hk]
  · exact List.Pairwise.forall_of_forall_of_flip (R := fun m m' : FiberMemory =>
      m = m' ∨ m.stackTop ≤ m'.addr ∨ m'.stackTop ≤ m.addr) (fun _ _ => .inl rfl)
      (hI.apart.imp fun ha => .inr (.inl ha.2)) (hI.apart.imp fun ha => .inr (.inr ha.2)) hm hm'
  · refine ⟨ho he, (hI.recycled.2 p.1).2 ?_⟩
    rw [ho he]
    simp

/-- The stack of the fiber 0, which has exited, is handed out to the fiber 1. -/
theorem stacks_unshared_run : ∃ s : State Nat, Reached ⟨.none, 64⟩ s ∧
    s.pc 1 = .got (some (fiberMemoryCreate 64 4096)) ∧
    s.pc 0 = .recycled (fiberMemoryCreate 64 4096) ∧ s.fiberPool.inorder.Nodup := by
  have h0 : Reached ⟨.none, 64⟩ (.start 0 : State Nat) := .start ⟨0, rfl⟩
  have h1 := h0.next (.spawn 0 rfl) |>.next (.empty 0 rfl rfl)
    |>.next (.create 0 4096 rfl (by simp [State.start, State.goto]))
    |>.next (.insert 0 _ rfl) |>.next (.start 0 _ rfl)
  have h2 := h1.next (.exit 0 _ 0 rfl) |>.next (.switch 0 _ 4200 rfl (by decide))
    |>.next (.recycle 0 _ rfl)
  have h3 := h2.next (.spawn 1 rfl) |>.next (.pop 1 0 [] rfl rfl)
    |>.next (.read 1 0 rfl) |>.next (.query 1 0 4200 rfl)
  exact ⟨_, h3, rfl, rfl, (stacks_unshared h3).2.2.2.1.1⟩

end Pool
