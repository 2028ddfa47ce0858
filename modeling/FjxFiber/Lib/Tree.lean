import Mathlib.Data.List.Nodup
import Mathlib.Tactic.Common

/-!
# Binary search trees whose nodes are named

A tree of nodes with a left and a right child. The nodes are names, so a tree can be written
through a node (`setChild`), and a child slot be read (`slot`).

* `descend_spec`: a search that goes left where `p` holds ends at an empty slot, between the nodes
  where `p` does not hold and those where it does;
* `upper_spec`: the last node at which such a search went left is the first where `p` holds;
* `inorder_link`: a leaf put in an empty slot comes next to the slot's node in the walk.
-/

set_option autoImplicit false

namespace Lib

inductive BinTree (α : Type*)
  | nil
  | node (left : BinTree α) (a : α) (right : BinTree α)
  deriving DecidableEq, Repr

inductive Side
  | left
  | right
  deriving DecidableEq, Repr

namespace BinTree

variable {α : Type*}

def inorder : BinTree α → List α
  | nil => []
  | node l a r => l.inorder ++ a :: r.inorder

@[simp] theorem inorder_nil : (nil : BinTree α).inorder = [] := rfl
@[simp] theorem inorder_node (l r : BinTree α) (a : α) :
    (node l a r).inorder = l.inorder ++ a :: r.inorder := rfl

@[simp] theorem inorder_eq_nil {t : BinTree α} : t.inorder = [] ↔ t = nil := by
  cases t <;> simp

def leaf (a : α) : BinTree α := node nil a nil

/-! ## Searches -/

/-- The slot at which a search ends that goes left where `p` holds: the last node it visited, and
the side on which it left that node. -/
def descend (p : α → Bool) (last : Option (α × Side)) : BinTree α → Option (α × Side)
  | nil => last
  | node l a r => if p a then descend p (some (a, .left)) l else descend p (some (a, .right)) r

/-- The last node at which such a search went left. -/
def upper (p : α → Bool) (up : Option α) : BinTree α → Option α
  | nil => up
  | node l a r => if p a then upper p (some a) l else upper p up r

/-- The walk through a tree: first nodes where `p` does not hold, then nodes where it does. -/
structure Splits (p : α → Bool) (t : BinTree α) (xs ys : List α) : Prop where
  eq : t.inorder = xs ++ ys
  no : ∀ x ∈ xs, p x = false
  yes : ∀ y ∈ ys, p y = true

/-- Where a search goes left, the right part of the walk lies in the left child. -/
theorem Splits.left {p : α → Bool} {l r : BinTree α} {a : α} {xs ys : List α}
    (h : Splits p (node l a r) xs ys) (ha : p a = true) :
    ∃ zs, Splits p l xs zs ∧ ys = zs ++ a :: r.inorder := by
  have heq := h.eq
  rw [inorder_node, List.append_eq_append_iff] at heq
  rcases heq with ⟨zs, hx, hz⟩ | ⟨zs, hx, hz⟩
  · cases zs with
    | nil => exact ⟨[], ⟨by simpa using hx.symm, h.no, by simp⟩, by simpa using hz.symm⟩
    | cons b zs =>
      obtain rfl : a = b := (List.cons.inj hz).1
      have := h.no a (by rw [hx]; simp)
      rw [ha] at this
      cases this
  · exact ⟨zs, ⟨hx, h.no, fun y hy => h.yes y (by rw [hz]; simp [hy])⟩, hz⟩

/-- Where a search goes right, the left part of the walk lies in the right child. -/
theorem Splits.right {p : α → Bool} {l r : BinTree α} {a : α} {xs ys : List α}
    (h : Splits p (node l a r) xs ys) (ha : p a = false) :
    ∃ zs, Splits p r zs ys ∧ xs = l.inorder ++ a :: zs := by
  have heq := h.eq
  rw [inorder_node, List.append_eq_append_iff] at heq
  rcases heq with ⟨zs, hx, hz⟩ | ⟨zs, hx, hz⟩
  · cases zs with
    | nil =>
      have := h.yes a (by rw [← (show a :: r.inorder = ys from hz)]; simp)
      rw [ha] at this
      cases this
    | cons b zs =>
      obtain ⟨rfl, hr⟩ := List.cons.inj hz
      exact ⟨zs, ⟨hr, fun x hx' => h.no x (by rw [hx]; simp [hx']), h.yes⟩, hx⟩
  · have := h.yes a (by rw [hz]; simp)
    rw [ha] at this
    cases this

/-- **The last left turn** is at the first node where `p` holds. -/
theorem upper_spec {p : α → Bool} {t : BinTree α} {xs ys : List α} (h : Splits p t xs ys)
    (up : Option α) : t.upper p up = ys.head?.or up := by
  induction t generalizing xs ys up with
  | nil =>
    obtain rfl : ys = [] := (List.append_eq_nil_iff.1 h.eq.symm).2
    rfl
  | node l a r ihl ihr =>
    cases ha : p a with
    | true =>
      obtain ⟨zs, hl, rfl⟩ := h.left ha
      rw [upper, if_pos ha, ihl hl]
      cases zs <;> rfl
    | false =>
      obtain ⟨zs, hr, -⟩ := h.right ha
      rw [upper, if_neg (by simp [ha]), ihr hr]

/-! ## Slots -/

/-- In a walk without repetitions a node stands once. -/
theorem split_unique {a : α} {xs ys xs' ys' : List α} (hn : (xs ++ a :: ys).Nodup)
    (h : xs ++ a :: ys = xs' ++ a :: ys') : xs = xs' ∧ ys = ys' := by
  obtain ⟨h1, h2⟩ : a ∉ xs ∧ a ∉ ys := by
    simpa using (List.nodup_cons.1 (List.nodup_middle.1 hn)).1
  obtain ⟨h3, -, h4⟩ := (List.append_cons_inj_of_notMem h1 h2).1 h
  exact ⟨h3, h4⟩

variable [DecidableEq α]

/-- The children of a node. -/
def children (a : α) : BinTree α → Option (BinTree α × BinTree α)
  | nil => none
  | node l b r => if b = a then some (l, r) else (l.children a).or (r.children a)

/-- What hangs in a child slot. -/
def slot (a : α) (side : Side) (t : BinTree α) : Option (BinTree α) :=
  (t.children a).map fun c => match side with
    | .left => c.1
    | .right => c.2

/-- A child slot is written. -/
def setChild (t : BinTree α) (a : α) (side : Side) (u : BinTree α) : BinTree α :=
  match t with
  | nil => nil
  | node l b r =>
    if b = a then match side with
      | .left => node u b r
      | .right => node l b u
    else node (l.setChild a side u) b (r.setChild a side u)

theorem children_of_notMem {a : α} {t : BinTree α} (h : a ∉ t.inorder) : t.children a = none := by
  induction t with
  | nil => rfl
  | node l b r ihl ihr =>
    simp only [inorder_node, List.mem_append, List.mem_cons, not_or] at h
    rw [children, if_neg (Ne.symm h.2.1), ihl h.1, ihr h.2.2]
    rfl

theorem setChild_of_notMem {a : α} {side : Side} {u t : BinTree α} (h : a ∉ t.inorder) :
    t.setChild a side u = t := by
  induction t with
  | nil => rfl
  | node l b r ihl ihr =>
    simp only [inorder_node, List.mem_append, List.mem_cons, not_or] at h
    simp [setChild, Ne.symm h.2.1, ihl h.1, ihr h.2.2]

/-- **A node in the walk**: its subtree is a segment of it, and writing a child slot replaces the
child's part of that segment. -/
theorem children_spec {a : α} {t : BinTree α} (hn : t.inorder.Nodup) (ha : a ∈ t.inorder) :
    ∃ xs ys l r, t.children a = some (l, r) ∧
      t.inorder = (xs ++ l.inorder) ++ a :: (r.inorder ++ ys) ∧ ∀ u,
        (t.setChild a .left u).inorder = (xs ++ u.inorder) ++ a :: (r.inorder ++ ys) ∧
        (t.setChild a .right u).inorder = (xs ++ l.inorder) ++ a :: (u.inorder ++ ys) := by
  induction t with
  | nil => simp at ha
  | node l b r ihl ihr =>
    by_cases hb : b = a
    · subst hb
      exact ⟨[], [], l, r, by simp [children], by simp, fun u => by simp [setChild]⟩
    · obtain ⟨hnl, ⟨-, hnr⟩, hdis⟩ : l.inorder.Nodup ∧ (b ∉ r.inorder ∧ r.inorder.Nodup) ∧
          ∀ x ∈ l.inorder, ∀ y ∈ b :: r.inorder, x ≠ y := by
        simpa only [inorder_node, List.nodup_append, List.nodup_cons] using hn
      have ha' : a ∈ l.inorder ∨ a ∈ r.inorder := by
        simpa [Ne.symm hb] using ha
      rcases ha' with hal | har
      · have hnr' : a ∉ r.inorder := fun h => hdis a hal a (.tail _ h) rfl
        obtain ⟨xs, ys, l', r', h1, h2, h3⟩ := ihl hnl hal
        refine ⟨xs, ys ++ b :: r.inorder, l', r', by simp [children, hb, h1], by simp [h2],
          fun u => ⟨?_, ?_⟩⟩
        · simp [setChild, hb, (h3 u).1, setChild_of_notMem hnr']
        · simp [setChild, hb, (h3 u).2, setChild_of_notMem hnr']
      · have hnl' : a ∉ l.inorder := fun h => hdis a h a (.tail _ har) rfl
        obtain ⟨xs, ys, l', r', h1, h2, h3⟩ := ihr hnr har
        refine ⟨l.inorder ++ b :: xs, ys, l', r',
          by simp [children, hb, h1, children_of_notMem hnl'], by simp [h2], fun u => ⟨?_, ?_⟩⟩
        · simp [setChild, hb, (h3 u).1, setChild_of_notMem hnl']
        · simp [setChild, hb, (h3 u).2, setChild_of_notMem hnl']

/-- A leaf in an empty left slot comes right before the slot's node. -/
theorem inorder_link_left {a : α} {t : BinTree α} {xs ys : List α} (hn : t.inorder.Nodup)
    (ht : t.inorder = xs ++ a :: ys) (hs : t.slot a .left = some nil) (b : α) :
    (t.setChild a .left (leaf b)).inorder = xs ++ b :: a :: ys := by
  obtain ⟨xs', ys', l, r, hc, he, hu⟩ := children_spec (a := a) hn (by rw [ht]; simp)
  obtain rfl : l = nil := by simpa only [slot, hc, Option.map_some, Option.some.injEq] using hs
  obtain ⟨rfl, rfl⟩ := split_unique (ht ▸ hn) (ht.symm.trans he)
  rw [(hu (leaf b)).1]
  simp [leaf]

/-- A leaf in an empty right slot comes right after the slot's node. -/
theorem inorder_link_right {a : α} {t : BinTree α} {xs ys : List α} (hn : t.inorder.Nodup)
    (ht : t.inorder = xs ++ a :: ys) (hs : t.slot a .right = some nil) (b : α) :
    (t.setChild a .right (leaf b)).inorder = xs ++ a :: b :: ys := by
  obtain ⟨xs', ys', l, r, hc, he, hu⟩ := children_spec (a := a) hn (by rw [ht]; simp)
  obtain rfl : r = nil := by simpa only [slot, hc, Option.map_some, Option.some.injEq] using hs
  obtain ⟨rfl, rfl⟩ := split_unique (ht ▸ hn) (ht.symm.trans he)
  rw [(hu (leaf b)).2]
  simp [leaf]

/-- **A leaf in an empty slot** of the first node of `ys`, or of the last one of `xs`, comes between
the two. -/
theorem inorder_link {a : α} {side : Side} {t : BinTree α} {xs ys : List α} (hn : t.inorder.Nodup)
    (ht : t.inorder = xs ++ ys) (hs : t.slot a side = some nil)
    (hside : (side = .left ∧ ∃ ys', ys = a :: ys') ∨ (side = .right ∧ ∃ xs', xs = xs' ++ [a]))
    (b : α) : (t.setChild a side (leaf b)).inorder = xs ++ b :: ys := by
  rcases hside with ⟨rfl, ys', rfl⟩ | ⟨rfl, xs', rfl⟩
  · exact inorder_link_left hn ht hs b
  · simpa using inorder_link_right hn (by simpa using ht) hs b

/-- The first node has no left child. -/
theorem slot_first {a : α} {t : BinTree α} {ys : List α} (hn : t.inorder.Nodup)
    (ht : t.inorder = a :: ys) : t.slot a .left = some nil := by
  obtain ⟨xs', ys', l, r, hc, he, -⟩ := children_spec (a := a) hn (by rw [ht]; simp)
  have h : [] = xs' ++ l.inorder :=
    (split_unique (ht ▸ hn) (ht.symm.trans he)).1
  obtain ⟨-, rfl⟩ : xs' = [] ∧ l = nil := by simpa using h
  simp [slot, hc]

/-- The last node has no right child. -/
theorem slot_last {a : α} {t : BinTree α} {xs : List α} (hn : t.inorder.Nodup)
    (ht : t.inorder = xs ++ [a]) : t.slot a .right = some nil := by
  obtain ⟨xs', ys', l, r, hc, he, -⟩ := children_spec (a := a) hn (by rw [ht]; simp)
  have h := (split_unique (ht ▸ hn) (ht.symm.trans he)).2
  obtain ⟨rfl, -⟩ : r = nil ∧ ys' = [] := by simpa using h
  simp [slot, hc]

theorem slot_node_left {a b : α} {side : Side} {l r : BinTree α} (hb : b ≠ a) (ha : a ∈ l.inorder)
    (hn : l.inorder.Nodup) : (node l b r).slot a side = l.slot a side := by
  obtain ⟨-, -, l', r', hc, -⟩ := children_spec hn ha
  simp [slot, children, hb, hc]

theorem slot_node_right {a b : α} {side : Side} {l r : BinTree α} (hb : b ≠ a)
    (ha : a ∉ l.inorder) : (node l b r).slot a side = r.slot a side := by
  simp [slot, children, hb, children_of_notMem ha]

/-- **A search ends at an empty slot**, of the first node where `p` holds or of the last one where
it does not. -/
theorem descend_spec {p : α → Bool} {t : BinTree α} {xs ys : List α} (h : Splits p t xs ys)
    (hn : t.inorder.Nodup) (ht : t ≠ nil) (last : Option (α × Side)) :
    ∃ a side, t.descend p last = some (a, side) ∧ t.slot a side = some nil ∧
      ((side = .left ∧ ∃ ys', ys = a :: ys') ∨ (side = .right ∧ ∃ xs', xs = xs' ++ [a])) := by
  induction t generalizing xs ys last with
  | nil => exact absurd rfl ht
  | node l b r ihl ihr =>
    obtain ⟨hnl, ⟨hbr, hnr⟩, hdis⟩ : l.inorder.Nodup ∧ (b ∉ r.inorder ∧ r.inorder.Nodup) ∧
        ∀ x ∈ l.inorder, ∀ y ∈ b :: r.inorder, x ≠ y := by
      simpa only [inorder_node, List.nodup_append, List.nodup_cons] using hn
    cases hb : p b with
    | true =>
      obtain ⟨zs, hl, rfl⟩ := h.left hb
      rw [descend, if_pos hb]
      by_cases hnil : l = nil
      · subst hnil
        obtain ⟨rfl, rfl⟩ : xs = [] ∧ zs = [] := by simpa using hl.eq
        exact ⟨b, .left, rfl, by simp [slot, children], .inl ⟨rfl, _, rfl⟩⟩
      · obtain ⟨a, side, hd, hs, hside⟩ := ihl hl hnl hnil (some (b, .left))
        have hal : a ∈ l.inorder := by
          rw [hl.eq]
          rcases hside with ⟨-, _, rfl⟩ | ⟨-, _, rfl⟩ <;> simp
        refine ⟨a, side, hd, ?_, hside.imp (fun h => ⟨h.1, ?_⟩) id⟩
        · rw [slot_node_left (fun he => hdis a hal b (.head _) he.symm) hal hnl, hs]
        · obtain ⟨-, ys', rfl⟩ := h
          exact ⟨ys' ++ b :: r.inorder, rfl⟩
    | false =>
      obtain ⟨zs, hr, rfl⟩ := h.right hb
      rw [descend, if_neg (by simp [hb])]
      by_cases hnil : r = nil
      · subst hnil
        obtain ⟨rfl, rfl⟩ : zs = [] ∧ ys = [] := by simpa using hr.eq
        exact ⟨b, .right, rfl, by simp [slot, children], .inr ⟨rfl, _, rfl⟩⟩
      · obtain ⟨a, side, hd, hs, hside⟩ := ihr hr hnr hnil (some (b, .right))
        have har : a ∈ r.inorder := by
          rw [hr.eq]
          rcases hside with ⟨-, _, rfl⟩ | ⟨-, _, rfl⟩ <;> simp
        refine ⟨a, side, hd, ?_, hside.imp id fun h => ⟨h.1, ?_⟩⟩
        · rw [slot_node_right (ne_of_mem_of_not_mem har hbr).symm
            (fun hal => hdis a hal a (.tail _ har) rfl), hs]
        · obtain ⟨-, xs', rfl⟩ := h
          exact ⟨l.inorder ++ b :: xs', by simp⟩

/-! ## Rotation to the root -/

/-- A node is made the root by single rotations. -/
def toRoot (a : α) : BinTree α → BinTree α
  | nil => nil
  | node l b r =>
    if b = a then node l b r
    else if a ∈ l.inorder then match l.toRoot a with
      | node x c y => node x c (node y b r)
      | nil => node l b r
    else match r.toRoot a with
      | node x c y => node (node l b x) c y
      | nil => node l b r

theorem toRoot_spec {a : α} {t : BinTree α} (ha : a ∈ t.inorder) :
    ∃ l r, t.toRoot a = node l a r ∧ l.inorder ++ a :: r.inorder = t.inorder := by
  induction t with
  | nil => simp at ha
  | node l b r ihl ihr =>
    by_cases hb : b = a
    · exact ⟨l, r, by simp [toRoot, hb], by simp [hb]⟩
    · by_cases hl : a ∈ l.inorder
      · obtain ⟨x, y, hx, he⟩ := ihl hl
        exact ⟨x, node y b r, by simp [toRoot, hb, hl, hx], by simp [← he]⟩
      · have hr : a ∈ r.inorder := by simpa [Ne.symm hb, hl] using ha
        obtain ⟨x, y, hx, he⟩ := ihr hr
        exact ⟨node l b x, y, by simp [toRoot, hb, hl, hx], by simp [← he]⟩

end BinTree

end Lib
