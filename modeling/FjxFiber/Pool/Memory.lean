import Mathlib.Data.List.Induction
import FjxFiber.Lib.Tree

/-!
# Stack memory and its pool (`src/fiber-memory.c`, `query_memory`, `insert_memory`)

A `FiberMemory` describes one stack: the chunk it was cut from, and its top, where the description
itself lies. The pool is a search tree of them by address. `fjx_avl_node_link` and
`fjx_avl_insert_bf` are parameters (`Balance`): the one hangs a node from a slot that holds nothing,
the other keeps the walk through the tree.

* `queryMemory_mem`, `queryMemory_some`: a search finds the memory an address lies in, if there is
  one;
* `insertMemory_spec`: an insertion puts the memory in its place in the walk.
-/

set_option autoImplicit false

namespace Pool

open Lib

/-! ## Memory -/

/-- `STACK_SIZE`. -/
def stackSize : Nat := 8 * 1024

/-- `align_address`. -/
def alignAddress (addr : Nat) : Nat := addr / 16 * 16

/-- `struct fjx_fiber_memory__`, less its tree node. -/
structure FiberMemory where
  addr : Nat
  size : Nat
  stackTop : Nat
  deriving DecidableEq, Repr

/-- `fiber_memory_create` on the chunk at `addr`; `sizeofMem` is the size of the description. -/
def fiberMemoryCreate (sizeofMem addr : Nat) : FiberMemory :=
  { addr, size := stackSize, stackTop := alignAddress (addr + stackSize - sizeofMem) }

/-- `fiber_memory_in_range`. -/
def fiberMemoryInRange (mem : FiberMemory) (addr : Nat) : Bool :=
  mem.addr ≤ addr && addr < mem.stackTop

theorem inRange_iff {m : FiberMemory} {a : Nat} :
    fiberMemoryInRange m a = true ↔ m.addr ≤ a ∧ a < m.stackTop := by
  simp [fiberMemoryInRange]

/-- A stack lies in its chunk. -/
theorem create_top_le (sizeofMem addr : Nat) :
    (fiberMemoryCreate sizeofMem addr).stackTop ≤ addr + stackSize := by
  simp only [fiberMemoryCreate, alignAddress]
  omega

/-! ## The pool -/

/-- `query_memory`, between lock and unlock of `pool_lock`. -/
def queryMemory (addr : Nat) : BinTree FiberMemory → Option FiberMemory
  | .nil => none
  | .node left m right =>
    if fiberMemoryInRange m addr then some m
    else if m.addr < addr then queryMemory addr right
    else queryMemory addr left

/-- `fjx_avl_node_link` and `fjx_avl_insert_bf`, as far as the pool relies on them. The slot is a
child of a node, or the root. -/
structure Balance where
  nodeLink : FiberMemory → Option (FiberMemory × Side) → BinTree FiberMemory → BinTree FiberMemory
  /-- A slot that holds nothing is pointed to the new node, which has no children. -/
  nodeLink_root : ∀ {m}, nodeLink m .none .nil = .leaf m
  nodeLink_child : ∀ {m pa side} {t : BinTree FiberMemory}, t.slot pa side = some .nil →
    nodeLink m (some (pa, side)) t = t.setChild pa side (.leaf m)
  insertBf : FiberMemory → BinTree FiberMemory → BinTree FiberMemory
  insertBf_inorder : ∀ m t, (insertBf m t).inorder = t.inorder

/-- No rebalancing is a way to keep the walk. -/
def Balance.none : Balance where
  nodeLink m slot t := match slot with
    | .none => .leaf m
    | some (pa, side) => t.setChild pa side (.leaf m)
  nodeLink_root := rfl
  nodeLink_child _ := rfl
  insertBf _ t := t
  insertBf_inorder _ _ := rfl

/-- `insert_memory`, between lock and unlock of `pool_lock`. -/
def insertMemory (B : Balance) (mem : FiberMemory) (t : BinTree FiberMemory) :
    BinTree FiberMemory :=
  B.insertBf mem (B.nodeLink mem (t.descend (fun m => !decide (m.addr < mem.addr)) .none) t)

/-- The memories lie one behind the other. -/
def Apart (m m' : FiberMemory) : Prop := m.addr < m'.addr ∧ m.stackTop ≤ m'.addr

section
variable {t : BinTree FiberMemory} {m mem : FiberMemory} {a : Nat}

theorem queryMemory_some (h : queryMemory a t = some m) :
    m ∈ t.inorder ∧ m.addr ≤ a ∧ a < m.stackTop := by
  induction t with
  | nil => cases h
  | node l b r ihl ihr =>
    rw [queryMemory] at h
    split at h
    · obtain rfl := Option.some.inj h
      exact ⟨by simp, inRange_iff.1 ‹_›⟩
    · split at h
      · exact ⟨by simp [(ihr h).1], (ihr h).2⟩
      · exact ⟨by simp [(ihl h).1], (ihl h).2⟩

/-- **A search finds the memory that an address lies in.** -/
theorem queryMemory_mem (hs : t.inorder.Pairwise Apart) (hm : m ∈ t.inorder)
    (ha : m.addr ≤ a ∧ a < m.stackTop) : queryMemory a t = some m := by
  induction t with
  | nil => cases hm
  | node l b r ihl ihr =>
    obtain ⟨hl, hr, hlr⟩ := List.pairwise_append.1 hs
    obtain ⟨hbr, hr⟩ := List.pairwise_cons.1 hr
    rw [queryMemory]
    rcases List.mem_append.1 hm with hm | hm
    · have hmb := (hlr m hm b (.head _)).2
      have hout : ¬ fiberMemoryInRange b a = true := fun h => by
        have := inRange_iff.1 h
        omega
      rw [if_neg hout, if_neg (by omega)]
      exact ihl hl hm
    · rcases List.mem_cons.1 hm with rfl | hm
      · rw [if_pos (inRange_iff.2 ha)]
      · have hbm := hbr m hm
        have hout : ¬ fiberMemoryInRange b a = true := fun h => by
          have := inRange_iff.1 h
          have := hbm.2
          omega
        have hlt : b.addr < a := Nat.lt_of_lt_of_le hbm.1 ha.1
        rw [if_neg hout, if_pos hlt]
        exact ihr hr hm

/-- A walk in the order of the addresses splits at every address. -/
theorem exists_split (l : List FiberMemory) (hl : l.Pairwise Apart) (a : Nat) :
    ∃ xs ys, l = xs ++ ys ∧ (∀ x ∈ xs, x.addr < a) ∧ ∀ y ∈ ys, ¬ y.addr < a := by
  induction l with
  | nil => exact ⟨[], [], rfl, by simp, by simp⟩
  | cons b l ih =>
    obtain ⟨hb, hl⟩ := List.pairwise_cons.1 hl
    by_cases hba : b.addr < a
    · obtain ⟨xs, ys, rfl, hx, hy⟩ := ih hl
      refine ⟨b :: xs, ys, rfl, fun x hx' => ?_, hy⟩
      rcases List.mem_cons.1 hx' with rfl | hx'
      · exact hba
      · exact hx x hx'
    · refine ⟨[], b :: l, rfl, by simp, fun y hy => ?_⟩
      rcases List.mem_cons.1 hy with rfl | hy
      · exact hba
      · have := (hb y hy).1
        omega

theorem nodup_of_apart {l : List FiberMemory} (h : l.Pairwise Apart) : l.Nodup :=
  h.imp fun h he => by
    have := h.1
    rw [he] at this
    omega

/-- **An insertion** puts the memory between those at lower and those at higher addresses. -/
theorem insertMemory_spec (B : Balance) (hs : t.inorder.Pairwise Apart)
    (hnew : ∀ m ∈ t.inorder, Apart m mem ∨ Apart mem m) :
    ∃ xs ys, t.inorder = xs ++ ys ∧ (insertMemory B mem t).inorder = xs ++ mem :: ys ∧
      (xs ++ mem :: ys).Pairwise Apart := by
  obtain ⟨xs, ys, he, hx, hy⟩ := exists_split t.inorder hs mem.addr
  have hsplit : t.Splits (fun m => !decide (m.addr < mem.addr)) xs ys :=
    ⟨he, fun x h => by simpa using hx x h, fun y h => by simpa using hy y h⟩
  refine ⟨xs, ys, he, ?_, ?_⟩
  · by_cases ht : t = .nil
    · subst ht
      obtain ⟨rfl, rfl⟩ : xs = [] ∧ ys = [] := by simpa using he
      simp [insertMemory, BinTree.descend, B.insertBf_inorder, B.nodeLink_root, BinTree.leaf]
    · obtain ⟨pa, side, hd, hslot, hside⟩ :=
        BinTree.descend_spec hsplit (nodup_of_apart hs) ht .none
      rw [insertMemory, hd, B.insertBf_inorder, B.nodeLink_child hslot,
        BinTree.inorder_link (nodup_of_apart hs) he hslot hside]
  · rw [he] at hs hnew
    obtain ⟨h1, h2, h3⟩ := List.pairwise_append.1 hs
    refine List.pairwise_append.2 ⟨h1, List.pairwise_cons.2 ⟨fun y h => ?_, h2⟩, fun x h b hb => ?_⟩
    · rcases hnew y (List.mem_append_right _ h) with hm | hm
      · exact absurd hm.1 (hy y h)
      · exact hm
    · rcases List.mem_cons.1 hb with rfl | hb
      · rcases hnew x (List.mem_append_left _ h) with hm | hm
        · exact hm
        · have := hx x h
          have := hm.1
          omega
      · exact h3 x h b hb

end

/-! ## Every sequence of insertions -/

/-- The intervals `[addr, stack_top)` of two memories have no address in common. -/
def FiberMemory.Disjoint (m m' : FiberMemory) : Prop :=
  m.stackTop ≤ m'.addr ∨ m'.stackTop ≤ m.addr

/-- `fiber_pool` after the insertions of `ms`, the first one first. -/
def insertAll (B : Balance) (ms : List FiberMemory) : BinTree FiberMemory :=
  ms.foldl (fun t mem => insertMemory B mem t) .nil

section
variable (B : Balance) {ms : List FiberMemory} {m mem : FiberMemory}

theorem insertAll_append_singleton :
    insertAll B (ms ++ [mem]) = insertMemory B mem (insertAll B ms) := by
  unfold insertAll
  rw [List.foldl_append, List.foldl_cons, List.foldl_nil]

/-- Memories with disjoint intervals lie one behind the other. -/
theorem apart_of_disjoint (hm : m.addr < m.stackTop) (hmem : mem.addr < mem.stackTop)
    (h : m.Disjoint mem) : Apart m mem ∨ Apart mem m := by
  unfold Apart
  unfold FiberMemory.Disjoint at h
  omega

/-- The walk of the pool holds what was inserted, in the order of the addresses. -/
theorem insertAll_spec (hne : ∀ m ∈ ms, m.addr < m.stackTop)
    (hdis : ms.Pairwise FiberMemory.Disjoint) :
    (insertAll B ms).inorder.Perm ms ∧ (insertAll B ms).inorder.Pairwise Apart := by
  induction ms using List.reverseRecOn with
  | nil => exact ⟨.refl _, .nil⟩
  | append_singleton ms mem ih =>
    obtain ⟨hdis, -, hlast⟩ := List.pairwise_append.1 hdis
    obtain ⟨hperm, hapart⟩ := ih (fun m hm => hne m (List.mem_append_left _ hm)) hdis
    have hnew : ∀ m ∈ (insertAll B ms).inorder, Apart m mem ∨ Apart mem m := by
      intro m hm
      have hms := hperm.mem_iff.1 hm
      exact apart_of_disjoint (hne m (List.mem_append_left _ hms)) (hne mem (by simp))
        (hlast m hms mem (by simp))
    obtain ⟨xs, ys, he, hins, hpair⟩ := insertMemory_spec B hapart hnew
    rw [insertAll_append_singleton, hins]
    refine ⟨?_, hpair⟩
    rw [he] at hperm
    exact List.perm_middle.trans ((hperm.cons mem).trans (List.perm_append_singleton mem ms).symm)

/-- **The search of the stack pool is exact.** After every sequence of insertions of memories with
non-empty and disjoint intervals, the walk of the pool is sorted by address, and was after every
insertion; a search finds the inserted memory whose interval holds the address, and finds none when
no interval does. -/
theorem queryMemory_exact (hne : ∀ m ∈ ms, m.addr < m.stackTop)
    (hdis : ms.Pairwise FiberMemory.Disjoint) :
    (∀ n, (insertAll B (ms.take n)).inorder.Pairwise fun m m' => m.addr < m'.addr) ∧
    (insertAll B ms).inorder.Perm ms ∧
    (∀ a, ∀ m ∈ ms, m.addr ≤ a → a < m.stackTop → queryMemory a (insertAll B ms) = some m) ∧
    ∀ a, (∀ m ∈ ms, ¬ (m.addr ≤ a ∧ a < m.stackTop)) →
      queryMemory a (insertAll B ms) = none := by
  obtain ⟨hperm, hapart⟩ := insertAll_spec B hne hdis
  refine ⟨fun n => ?_, hperm, fun a m hm h1 h2 => ?_, fun a hno => ?_⟩
  · have hsub := List.take_sublist n ms
    exact (insertAll_spec B (fun m hm => hne m (hsub.subset hm)) (hdis.sublist hsub)).2.imp And.left
  · exact queryMemory_mem hapart (hperm.mem_iff.2 hm) ⟨h1, h2⟩
  · rw [Option.eq_none_iff_forall_ne_some]
    intro m hq
    obtain ⟨hm, ha⟩ := queryMemory_some hq
    exact hno m (hperm.mem_iff.1 hm) ha

end

/-- Two memories are inserted, the upper one first; the end of the lower one lies in the gap. -/
theorem queryMemory_exact_run :
    queryMemory 150 (insertAll .none [⟨300, 100, 400⟩, ⟨100, 100, 200⟩]) =
        some ⟨100, 100, 200⟩ ∧
      queryMemory 200 (insertAll .none [⟨300, 100, 400⟩, ⟨100, 100, 200⟩]) = none := by
  have hdis : [FiberMemory.mk 300 100 400, ⟨100, 100, 200⟩].Pairwise FiberMemory.Disjoint := by
    simp [FiberMemory.Disjoint]
  obtain ⟨-, -, hin, hout⟩ := queryMemory_exact .none (by simp) hdis
  exact ⟨hin 150 ⟨100, 100, 200⟩ (by simp) (by decide) (by decide), hout 200 (by simp)⟩

end Pool
