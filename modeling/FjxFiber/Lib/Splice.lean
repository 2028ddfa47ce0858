import FjxFiber.Lib.Ring

/-!
# Walking, splicing and footprints of intrusive lists

* `Links.Rest s h x l`: a walk along the list of `h` stands at `x` and still has the nodes `l`
  before it. The nodes behind the walk are not spoken of: they may belong to somebody else by now,
  and the header and the node `x` may still name them.
* `Links.Within A op s`: on the links `s` the operation `op` reads and writes the link fields of
  the nodes `A` and of no other.
* `SpliceOps`: list operations that may move whole lists, with their effect on rings and their
  footprints, and `SpliceOps.pointers`, the textbook implementation.
-/

set_option autoImplicit false

namespace Lib

namespace Links

variable {P : Type*} {s s' : Links P} {h g a b x : P} {l m A B : List P}

/-! ## Walking -/

/-- A walk along the list of `h` stands at `x`; the nodes `l` and then `h` are before it. -/
def Rest (s : Links P) (h x : P) (l : List P) : Prop :=
  (h :: l).Nodup ∧ s.Linked (l ++ [h]) ∧ (l ++ [h]).head? = some x

theorem SameAt.refl (s : Links P) (x : P) : s.SameAt s x := ⟨rfl, rfl⟩

theorem SameAt.symm {r t : Links P} (h : r.SameAt t x) : t.SameAt r x := ⟨h.1.symm, h.2.symm⟩

theorem Ring.rest (hr : s.Ring h l) : s.Rest h (s.next h) l := by
  obtain ⟨hn, hl⟩ := hr
  refine ⟨hn, (List.isChain_cons.1 hl).2, ?_⟩
  cases l with
  | nil => simp [hl.rel.1]
  | cons a l => simp [hl.rel.1]

/-- The first node of a ring is taken as its header. -/
theorem Ring.rotate_first (hr : s.Ring h (a :: l)) : s.Ring a (l ++ [h]) := by
  have hr' : s.Ring h ([] ++ a :: l) := hr
  exact hr'.rotate

theorem Ring.next_mem (hr : s.Ring h l) : s.next h ∈ h :: l := by
  cases l with
  | nil => simp [hr.next_nil]
  | cons a l => simp [hr.next_header]

theorem Ring.prev_mem (hr : s.Ring h l) : s.prev h ∈ h :: l := by
  rcases List.eq_nil_or_concat' l with rfl | ⟨m, z, rfl⟩
  · simp [(ring_nil.1 hr).2]
  · simp [hr.prev_header]

theorem Rest.first (hr : s.Rest h x (a :: l)) : x = a := by
  simpa using hr.2.2.symm

theorem Rest.mem (hr : s.Rest h x l) : x ∈ h :: l := by
  have hx : x ∈ l ++ [h] := List.mem_of_head? hr.2.2
  rw [List.mem_append, List.mem_singleton] at hx
  exact List.mem_cons.2 hx.symm

/-- The walk takes one step. -/
theorem Rest.step (hr : s.Rest h x (a :: l)) : s.Rest h (s.next a) l := by
  obtain ⟨hn, hl, -⟩ := hr
  rw [List.nodup_cons, List.mem_cons, not_or] at hn
  refine ⟨List.nodup_cons.2 ⟨hn.1.2, (List.nodup_cons.1 hn.2).2⟩, (List.isChain_cons.1 hl).2, ?_⟩
  cases l with
  | nil => simp [hl.rel.1]
  | cons b l => simp [hl.rel.1]

/-- The walk stands at the header exactly when it has seen all nodes. -/
theorem Rest.at_header (hr : s.Rest h x l) : x = h ↔ l = [] := by
  obtain ⟨hn, -, hx⟩ := hr
  cases l with
  | nil => simpa using hx.symm
  | cons a l =>
    obtain rfl : a = x := by simpa using hx
    have : a ≠ h := fun he => (List.nodup_cons.1 hn).1 (he ▸ .head _)
    simp [this]

theorem Rest.congr (hr : s.Rest h x l) (hs : ∀ y ∈ h :: l, s'.SameAt s y) : s'.Rest h x l := by
  obtain ⟨hn, hl, hx⟩ := hr
  refine ⟨hn, ?_, hx⟩
  cases l with
  | nil => exact .singleton h
  | cons a l =>
    have hl' : s.Linked (a :: (l ++ [h])) := hl
    have hd : (a :: (l ++ [h])).dropLast = a :: l := by
      rw [← List.cons_append, List.dropLast_concat]
    show s'.Linked (a :: (l ++ [h]))
    refine hl'.congr (fun y hy => (hs y ?_).1) fun y hy => (hs y ?_).2
    · rw [hd] at hy
      exact .tail _ hy
    · rw [List.mem_append, List.mem_singleton] at hy
      rcases hy with hy | rfl
      · exact .tail _ (.tail _ hy)
      · exact .head _

/-! ## Footprints -/

/-- On `s`, `op` reads and writes the link fields of the nodes `A` only. -/
def Within (A : List P) (op : Links P → Links P) (s : Links P) : Prop :=
  ∀ s' : Links P, (∀ x ∈ A, s'.SameAt s x) →
    (∀ x ∈ A, (op s').SameAt (op s) x) ∧ ∀ x ∉ A, (op s').SameAt s' x

theorem Within.same {op : Links P → Links P} (hw : Within A op s) (hx : x ∉ A) :
    (op s).SameAt s x :=
  (hw s fun y _ => .refl s y).2 x hx

theorem Within.mono {op : Links P → Links P} (hw : Within A op s) (hAB : A ⊆ B) :
    Within B op s := by
  intro s' hs
  obtain ⟨hin, hout⟩ := hw s' fun x hx => hs x (hAB hx)
  refine ⟨fun x hx => ?_, fun x hx => hout x fun hA => hx (hAB hA)⟩
  by_cases hA : x ∈ A
  · exact hin x hA
  · exact (hout x hA).trans ((hs x hx).trans (hw.same hA).symm)

theorem Within.id (A : List P) (s : Links P) : Within A (fun s => s) s :=
  fun _ hs => ⟨hs, fun x _ => .refl _ x⟩

/-- What an operation reads of `A` it may be told beforehand. -/
theorem Within.congr {op op' : Links P → Links P} (hw : Within A op' s)
    (he : ∀ s' : Links P, (∀ x ∈ A, s'.SameAt s x) → op s' = op' s') : Within A op s := by
  intro s' hs
  rw [he s' hs, he s fun x _ => .refl s x]
  exact hw s' hs

/-! ## Writing links -/

variable [DecidableEq P]

/-- **One raw link closes what is left of a walk to a ring.** -/
theorem Rest.close (hr : s.Rest h x l) : (s.link h x).Ring h l := by
  obtain ⟨hn, hl, hx⟩ := hr
  refine ⟨hn, List.isChain_cons.2 ⟨fun y hy => ?_, ?_⟩⟩
  · obtain rfl : x = y := by simpa [hx] using hy
    exact s.link_joined h x
  · have hd : h ∉ (l ++ [h]).dropLast := by
      rw [List.dropLast_concat]
      exact (List.nodup_cons.1 hn).1
    apply hl.keep hd
    show x ∉ (l ++ [h]).tail
    cases l with
    | nil => simp
    | cons a l =>
      obtain rfl : a = x := by simpa using hx
      simp only [List.nodup_cons, List.mem_cons, not_or] at hn
      simpa using ⟨hn.2.1, fun he => hn.1.1 he.symm⟩

theorem link_sameAt_congr (a b : P) (hs : s'.SameAt s x) :
    (s'.link a b).SameAt (s.link a b) x := by
  refine ⟨?_, ?_⟩
  · rw [link_next, link_next, hs.1]
  · rw [link_prev, link_prev, hs.2]

theorem Within.link {op : Links P → Links P} (hw : Within A op s) (ha : a ∈ A) (hb : b ∈ A) :
    Within A (fun s => (op s).link a b) s := by
  intro s' hs
  obtain ⟨hin, hout⟩ := hw s' hs
  refine ⟨fun x hx => link_sameAt_congr a b (hin x hx), fun x hx => ?_⟩
  have hxa : x ≠ a := (ne_of_mem_of_not_mem ha hx).symm
  have hxb : x ≠ b := (ne_of_mem_of_not_mem hb hx).symm
  exact (link_sameAt hxa hxb).trans (hout x hx)

/-! ## Splicing -/

/-- All nodes of `g` go behind those of `h`; the header `g` is left as it was. -/
def addListTail (h g : P) (s : Links P) : Links P :=
  (s.link (s.prev h) (s.next g)).link (s.prev g) h

/-- All nodes of `g` go before those of `h`. -/
def addList (h g : P) (s : Links P) : Links P := s.addListTail (s.next h) g

theorem Ring.addListTail (hr : s.Ring h l) (hg : s.Ring g m) (hm : m ≠ [])
    (hn : (h :: l ++ g :: m).Nodup) : (s.addListTail h g).Ring h (l ++ m) := by
  -- `z` is the last node of the list of `h`, `a` and `y` are the first and the last of that of `g`
  obtain ⟨p, z, hz⟩ := (List.eq_nil_or_concat' (h :: l)).resolve_left (by simp)
  obtain ⟨a, m', hm'⟩ := List.exists_cons_of_ne_nil hm
  obtain ⟨q, y, hy⟩ := (List.eq_nil_or_concat' m).resolve_left hm
  have hzl : z ∈ h :: l := by simp [hz]
  have ham : a ∈ m := by simp [hm']
  have hym : y ∈ m := by simp [hy]
  obtain ⟨hnl, hngm, hdis⟩ := List.nodup_append.1 hn
  obtain ⟨hgm, hnm⟩ := List.nodup_cons.1 hngm
  have hapart : ∀ x ∈ m, x ∉ h :: l := fun x hx hxl => hdis x hxl x (.tail _ hx) rfl
  have hprev : s.prev h = z := by
    have hc : s.Linked ((p ++ [z]) ++ [h]) := by rw [← hz]; exact hr.2
    exact ((List.isChain_append.1 hc).2.2 z (by simp) h (by simp)).2
  have hnext : s.next g = a := by rw [hm'] at hg; exact hg.next_header
  have hprevg : s.prev g = y := by rw [hy] at hg; exact hg.prev_header
  have hl : s.Linked (h :: l) := List.IsChain.left_of_append hr.2
  have hlm : s.Linked m := (ring_iff.1 hg).2.1
  rw [Links.addListTail, hprev, hnext, hprevg]
  -- the joints inside of the two lists are kept
  have hl' : ((s.link z a).link y h).Linked (h :: l) := by
    refine (hl.keep ?_ ?_).keep ?_ ?_
    · rw [hz, List.dropLast_concat]
      rw [hz] at hnl
      exact fun hx => (List.nodup_append.1 hnl).2.2 z hx z (by simp) rfl
    · exact fun hx => hapart a ham (List.mem_of_mem_tail hx)
    · exact fun hx => hapart y hym (List.dropLast_subset _ hx)
    · exact (List.nodup_cons.1 hnl).1
  have hm'' : ((s.link z a).link y h).Linked m := by
    refine (hlm.keep ?_ ?_).keep ?_ ?_
    · exact fun hx => hapart z (List.dropLast_subset _ hx) hzl
    · rw [hm'] at hnm ⊢
      exact (List.nodup_cons.1 hnm).1
    · rw [hy, List.dropLast_concat]
      rw [hy] at hnm
      exact fun hx => (List.nodup_append.1 hnm).2.2 y hx y (by simp) rfl
    · exact fun hx => hapart h (List.mem_of_mem_tail hx) (.head _)
  have hza : ((s.link z a).link y h).Joined z a :=
    (s.link_joined z a).link (ne_of_mem_of_not_mem hzl (hapart y hym))
      (ne_of_mem_of_not_mem ham fun hx => hapart h hx (.head _))
  refine ⟨?_, ?_⟩
  · rw [← List.cons_append]
    exact hn.sublist (List.Sublist.append_left (List.sublist_cons_self g m) _)
  · have hc : ((s.link z a).link y h).Linked ((h :: l) ++ (m ++ [h])) := by
      refine List.isChain_append.2 ⟨hl', List.isChain_append.2 ⟨hm'', .singleton h, ?_⟩, ?_⟩
      · intro u hu v hv
        obtain rfl : y = u := by simpa [hy] using hu
        obtain rfl : h = v := by simpa using hv
        exact link_joined _ y h
      · intro u hu v hv
        obtain rfl : z = u := by simpa [hz] using hu
        obtain rfl : a = v := by simpa [hm'] using hv
        exact hza
    simpa using hc

theorem Ring.addList (hr : s.Ring h l) (hg : s.Ring g m) (hm : m ≠ [])
    (hn : (h :: l ++ g :: m).Nodup) : (s.addList h g).Ring h (m ++ l) := by
  cases l with
  | nil =>
    rw [Links.addList, hr.next_nil]
    simpa using hr.addListTail hg hm hn
  | cons b l =>
    rw [Links.addList, hr.next_header]
    have hb : s.Ring b (l ++ [h]) := hr.rotate_first
    have hperm : (b :: (l ++ [h]) ++ g :: m).Perm (h :: b :: l ++ g :: m) :=
      (List.perm_append_singleton h (b :: l)).append_right (g :: m)
    have h1 : (s.addListTail b g).Ring b (l ++ h :: m) := by
      simpa using hb.addListTail hg hm (hperm.nodup_iff.2 hn)
    exact h1.rotate

/-! ## The footprints of the textbook operations -/

theorem within_init (h : P) (s : Links P) : Within [h] (Links.init h) s :=
  (Within.id [h] s).link (.head _) (.head _)

theorem Ring.within_replaceInit (hr : s.Ring h l) :
    Within (g :: h :: l) (Links.replaceInit h g) s := by
  have hnx : s.next h ∈ g :: h :: l := .tail _ hr.next_mem
  have hpv : s.prev h ∈ g :: h :: l := .tail _ hr.prev_mem
  have hh : h ∈ g :: h :: l := .tail _ (.head _)
  refine ((((Within.id _ s).link (.head _) hnx).link hpv (.head _)).link hh hh).congr ?_
  intro s' hs
  rw [Links.replaceInit, (hs h hh).1, (hs h hh).2]
  rfl

theorem Ring.within_addListTail (hr : s.Ring h l) (hg : s.Ring g m) :
    Within (h :: l ++ g :: m) (Links.addListTail h g) s := by
  have hh : h ∈ h :: l ++ g :: m := .head _
  have hgm : g ∈ h :: l ++ g :: m := by simp
  have hz : s.prev h ∈ h :: l ++ g :: m := List.mem_append_left _ hr.prev_mem
  have ha : s.next g ∈ h :: l ++ g :: m := List.mem_append_right _ hg.next_mem
  have hy : s.prev g ∈ h :: l ++ g :: m := List.mem_append_right _ hg.prev_mem
  refine (((Within.id _ s).link hz ha).link hy hh).congr ?_
  intro s' hs
  rw [Links.addListTail, (hs h hh).2, (hs g hgm).1, (hs g hgm).2]

theorem Ring.within_addList (hr : s.Ring h l) (hg : s.Ring g m) :
    Within (h :: l ++ g :: m) (Links.addList h g) s := by
  have hh : h ∈ h :: l ++ g :: m := .head _
  have htail : Within (h :: l ++ g :: m) (Links.addListTail (s.next h) g) s := by
    cases l with
    | nil =>
      rw [hr.next_nil]
      exact hr.within_addListTail hg
    | cons b l =>
      rw [hr.next_header]
      have hb : s.Ring b (l ++ [h]) := hr.rotate_first
      refine (hb.within_addListTail hg).mono ?_
      intro x hx
      simp only [List.mem_append, List.mem_cons, List.not_mem_nil, or_false] at hx ⊢
      tauto
  apply htail.congr
  intro s' hs
  rw [Links.addList, (hs h hh).1]

end Links

open Links

/-- Operations on circular lists that also move whole lists, with their footprints. -/
structure SpliceOps (P : Type*) [DecidableEq P] extends ListOps P where
  empty : P → Links P → Bool
  addList : P → P → Links P → Links P
  addListTail : P → P → Links P → Links P
  empty_ring : ∀ {h s l}, s.Ring h l → empty h s = l.isEmpty
  empty_within : ∀ {h s} {s' : Links P}, s'.SameAt s h → empty h s' = empty h s
  init_within : ∀ h s, Within [h] (init h) s
  replaceInit_within : ∀ {h g s l}, s.Ring h l → l ≠ [] → g ∉ h :: l →
    Within (g :: h :: l) (replaceInit h g) s
  addList_ring : ∀ {h g s l m}, s.Ring h l → s.Ring g m → m ≠ [] → (h :: l ++ g :: m).Nodup →
    (addList h g s).Ring h (m ++ l)
  addList_within : ∀ {h g s l m}, s.Ring h l → s.Ring g m → m ≠ [] →
    (h :: l ++ g :: m).Nodup → Within (h :: l ++ g :: m) (addList h g) s
  addListTail_ring : ∀ {h g s l m}, s.Ring h l → s.Ring g m → m ≠ [] →
    (h :: l ++ g :: m).Nodup → (addListTail h g s).Ring h (l ++ m)
  addListTail_within : ∀ {h g s l m}, s.Ring h l → s.Ring g m → m ≠ [] →
    (h :: l ++ g :: m).Nodup → Within (h :: l ++ g :: m) (addListTail h g) s

/-- The textbook implementation keeps the promises. -/
def SpliceOps.pointers (P : Type*) [DecidableEq P] : SpliceOps P where
  toListOps := ListOps.pointers P
  empty h s := s.next h = h
  addList := Links.addList
  addListTail := Links.addListTail
  empty_ring hr := by
    rw [Bool.eq_iff_iff, decide_eq_true_iff, List.isEmpty_iff]
    exact hr.rest.at_header
  empty_within hs := by rw [hs.1]
  init_within := within_init
  replaceInit_within hr _ _ := hr.within_replaceInit
  addList_ring := Ring.addList
  addList_within hr hg _ _ := hr.within_addList hg
  addListTail_ring := Ring.addListTail
  addListTail_within hr hg _ _ := hr.within_addListTail hg

end Lib
