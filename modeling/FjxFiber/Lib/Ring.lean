import Mathlib.Data.List.Chain
import Mathlib.Data.List.Nodup
import Mathlib.Logic.Function.Basic

/-!
# Intrusive circular lists

Doubly linked lists through `next` and `prev` fields of the nodes themselves, closed by a header.
`Ring s h l`: from the header `h` the links of `s` run through exactly the nodes `l`, and back.

* `Ring.rotate`: any node of a ring may be taken as its header,
* `Ring.cut`: three raw link writes cut a list in two,
* `ListOps`: list operations of which only their effect on rings is known, and
  `ListOps.pointers`, the textbook implementation, which has these effects.
-/

set_option autoImplicit false

namespace Lib

/-- The link fields of all nodes. -/
structure Links (P : Type*) where
  next : P → P
  prev : P → P

namespace Links

variable {P : Type*} {s s' : Links P} {h a b x : P} {l l₁ l₂ : List P}

/-- `a` and `b` are linked to one another. -/
def Joined (s : Links P) (a b : P) : Prop := s.next a = b ∧ s.prev b = a

/-- Neighbours in `l` are linked to one another. -/
def Linked (s : Links P) (l : List P) : Prop := l.IsChain s.Joined

/-- The list of the header `h` holds the nodes `l`. -/
def Ring (s : Links P) (h : P) (l : List P) : Prop := (h :: l).Nodup ∧ s.Linked (h :: l ++ [h])

/-- Links agree at a node. -/
def SameAt (s' s : Links P) (x : P) : Prop := s'.next x = s.next x ∧ s'.prev x = s.prev x

theorem SameAt.trans {r s t : Links P} (h : r.SameAt s x) (h' : s.SameAt t x) : r.SameAt t x :=
  ⟨h.1.trans h'.1, h.2.trans h'.2⟩

/-! ## Reading a ring -/

theorem Linked.congr (hl : s.Linked (a :: l)) (hn : ∀ x ∈ (a :: l).dropLast, s'.next x = s.next x)
    (hp : ∀ x ∈ l, s'.prev x = s.prev x) : s'.Linked (a :: l) := by
  induction l generalizing a with
  | nil => exact .singleton a
  | cons b l ih =>
    obtain ⟨hab, hl⟩ := List.isChain_cons_cons.1 hl
    refine List.isChain_cons_cons.2 ⟨⟨?_, ?_⟩, ih hl (fun x hx => hn x ?_) fun x hx => hp x ?_⟩
    · rw [hn a (by simp), hab.1]
    · rw [hp b (by simp), hab.2]
    · simp [hx]
    · simp [hx]

/-- A ring as a segment of linked nodes and its two joints with the header. -/
theorem ring_iff : s.Ring h l ↔ (h :: l).Nodup ∧ s.Linked l ∧ (∀ x ∈ l.head?, s.Joined h x) ∧
    (∀ x ∈ l.getLast?, s.Joined x h) ∧ (l = [] → s.Joined h h) := by
  rw [Ring, Linked, List.cons_append, List.isChain_cons, List.isChain_append]
  cases l with
  | nil => simp [Linked]
  | cons a l => simp [Linked]; tauto

theorem ring_nil : s.Ring h [] ↔ s.Joined h h := by simp [ring_iff, Linked]

theorem Ring.nodup (hr : s.Ring h l) : l.Nodup := (List.nodup_cons.1 hr.1).2

/-- **Any node of a ring may be its header.** -/
theorem Ring.rotate (hr : s.Ring h (l₁ ++ a :: l₂)) : s.Ring a (l₂ ++ h :: l₁) := by
  obtain ⟨hn, hl⟩ := hr
  have hperm : (a :: l₂ ++ h :: l₁).Perm (h :: l₁ ++ a :: l₂) := List.perm_append_comm
  refine ⟨hperm.nodup_iff.2 hn, ?_⟩
  have h1 : s.Linked ((h :: l₁) ++ a :: (l₂ ++ [h])) := by simpa using hl
  obtain ⟨h2, h3⟩ := List.isChain_split.1 h1
  have h4 : s.Linked ((a :: l₂) ++ h :: (l₁ ++ [a])) :=
    List.isChain_split.2 ⟨by simpa using h3, by simpa using h2⟩
  simpa using h4

theorem Ring.next_header (hr : s.Ring h (a :: l)) : s.next h = a :=
  ((ring_iff.1 hr).2.2.1 a (by simp)).1

theorem Ring.next_nil (hr : s.Ring h []) : s.next h = h := (ring_nil.1 hr).1

theorem Ring.prev_header (hr : s.Ring h (l ++ [a])) : s.prev h = a :=
  ((ring_iff.1 hr).2.2.2.1 a (by simp)).2

theorem Ring.prev_node (hr : s.Ring h (l₁ ++ a :: b :: l₂)) : s.prev b = a := by
  have hr' : s.Ring h ((l₁ ++ [a]) ++ b :: l₂) := by simpa using hr
  have : s.Ring b ((l₂ ++ h :: l₁) ++ [a]) := by simpa using hr'.rotate
  exact this.prev_header

/-- A ring is kept by everything that keeps the links of its nodes. -/
theorem Ring.congr (hr : s.Ring h l) (hs : ∀ x ∈ h :: l, s'.SameAt s x) : s'.Ring h l := by
  refine ⟨hr.1, hr.2.congr (fun x hx => (hs x ?_).1) fun x hx => (hs x ?_).2⟩
  · have hd : (h :: (l ++ [h])).dropLast = h :: l := by
      rw [← List.cons_append, List.dropLast_concat]
    exact hd ▸ hx
  · rcases List.mem_append.1 hx with hx | hx
    · exact .tail _ hx
    · simp only [List.mem_singleton] at hx
      simp [hx]

theorem Ring.of_linked {z : P} (hn : (h :: l).Nodup) (hl : s.Linked l)
    (hfirst : l.head? = some a) (hlast : l.getLast? = some z) (hf : s.Joined h a)
    (hj : s.Joined z h) : s.Ring h l := by
  refine ring_iff.2 ⟨hn, hl, fun x hx => ?_, fun x hx => ?_, fun he => by simp [he] at hfirst⟩
  · rw [hfirst] at hx
    exact Option.mem_some_iff.1 hx ▸ hf
  · rw [hlast] at hx
    exact Option.mem_some_iff.1 hx ▸ hj

/-! ## Writing links -/

variable [DecidableEq P]

/-- `a->next = b; b->prev = a;` -/
def link (s : Links P) (a b : P) : Links P :=
  { next := Function.update s.next a b, prev := Function.update s.prev b a }

theorem link_next (s : Links P) (a b x : P) :
    (s.link a b).next x = if x = a then b else s.next x := by simp [link, Function.update_apply]

theorem link_prev (s : Links P) (a b x : P) :
    (s.link a b).prev x = if x = b then a else s.prev x := by simp [link, Function.update_apply]

theorem link_joined (s : Links P) (a b : P) : (s.link a b).Joined a b := by
  simp [Joined, link]

theorem link_sameAt (hxa : x ≠ a) (hxb : x ≠ b) : (s.link a b).SameAt s x := by
  simp [SameAt, link, hxa, hxb]

/-- Later links keep a joint that they do not write. -/
theorem Joined.link {c d : P} (hj : s.Joined a b) (hac : a ≠ c) (hbd : b ≠ d) :
    (s.link c d).Joined a b := by
  simpa [Joined, Links.link, hac, hbd] using hj

/-- A linked segment is kept where neither the `next` of its nodes nor the `prev` of the later ones
is written. -/
theorem Linked.keep {c d : P} (hl : s.Linked l) (hc : c ∉ l.dropLast) (hd : d ∉ l.tail) :
    (s.link c d).Linked l := by
  cases l with
  | nil => exact .nil
  | cons a l =>
    refine hl.congr (fun x hx => ?_) fun x hx => ?_
    · rw [link_next, if_neg (ne_of_mem_of_not_mem hx hc)]
    · rw [link_prev, if_neg (ne_of_mem_of_not_mem hx hd)]

theorem Linked.keep_apart {c d : P} (hl : s.Linked l) (hc : c ∉ l) (hd : d ∉ l) :
    (s.link c d).Linked l :=
  hl.keep (fun hx => hc (List.dropLast_subset l hx)) fun hx => hd (List.mem_of_mem_tail hx)

/-- A joint into the first node of a segment is written. -/
theorem Linked.keep_first {c d : P} (hl : s.Linked (d :: l)) (hn : (d :: l).Nodup)
    (hc : c ∉ d :: l) : (s.link c d).Linked (d :: l) :=
  hl.keep (fun hx => hc (List.dropLast_subset _ hx)) (List.nodup_cons.1 hn).1

/-- A joint out of the last node of a segment is written. -/
theorem Linked.keep_last {c d : P} (hl : s.Linked (l ++ [c])) (hn : (l ++ [c]).Nodup)
    (hd : d ∉ l ++ [c]) : (s.link c d).Linked (l ++ [c]) := by
  refine hl.keep ?_ fun hx => hd (List.mem_of_mem_tail hx)
  rw [List.dropLast_concat]
  exact fun hx => (List.nodup_append.1 hn).2.2 c hx c (by simp) rfl

/-- **A list is cut in two**: its first part goes to the header `g`, and its own header keeps the
rest. -/
theorem Ring.cut {g first last : P} (hr : s.Ring h (l₁ ++ b :: l₂))
    (hg : g ∉ h :: (l₁ ++ b :: l₂)) (hfirst : l₁.head? = some first)
    (hlast : l₁.getLast? = some last) :
    (((s.link g first).link last g).link h b).Ring g l₁ ∧
      (((s.link g first).link last g).link h b).Ring h (b :: l₂) := by
  obtain ⟨hn, hl, -, hlasth, -⟩ := ring_iff.1 hr
  obtain ⟨hl1, hl2⟩ : s.Linked l₁ ∧ s.Linked (b :: l₂) :=
    ⟨hl.left_of_append, hl.right_of_append⟩
  obtain ⟨m, rfl⟩ : ∃ m, l₁ = first :: m := ⟨l₁.tail, List.eq_cons_of_mem_head? hfirst⟩
  obtain ⟨m', hm'⟩ : ∃ m', first :: m = m' ++ [last] :=
    ⟨_, (List.dropLast_append_getLast? last hlast).symm⟩
  -- `g`, `h` and the nodes of the two parts are all different
  obtain ⟨hh, hn'⟩ := List.nodup_cons.1 hn
  obtain ⟨hn1, hn2, hdis⟩ := List.nodup_append.1 hn'
  obtain ⟨hgh, hg'⟩ : g ≠ h ∧ g ∉ first :: m ++ b :: l₂ := by simpa using hg
  obtain ⟨hg1, hg2⟩ : g ∉ first :: m ∧ g ∉ b :: l₂ := by
    rwa [List.mem_append, not_or] at hg'
  obtain ⟨hh1, hh2⟩ : h ∉ first :: m ∧ h ∉ b :: l₂ := by
    rwa [List.mem_append, not_or] at hh
  have hfm : first ∈ first :: m := .head _
  have hlm : last ∈ first :: m := by simp [hm']
  have hbm : b ∈ b :: l₂ := .head _
  have hb1 : b ∉ first :: m := fun hx => hdis b hx b hbm rfl
  have hl2m : last ∉ b :: l₂ := fun hx => hdis last hlm last hx rfl
  have hf2m : first ∉ b :: l₂ := fun hx => hdis first hfm first hx rfl
  have hfh := ne_of_mem_of_not_mem hfm hh1
  have hbh := ne_of_mem_of_not_mem hbm hh2
  have hfg := ne_of_mem_of_not_mem hfm hg1
  have hlg := ne_of_mem_of_not_mem hlm hg1
  have hbg := ne_of_mem_of_not_mem hbm hg2
  constructor
  · refine .of_linked (List.nodup_cons.2 ⟨hg1, hn1⟩) ?_ hfirst hlast ?_ ?_
    · have h1 := hl1.keep_first hn1 hg1
      rw [hm'] at h1 hn1 hg1 hh1 hb1 ⊢
      exact (h1.keep_last hn1 hg1).keep_apart hh1 hb1
    · exact ((s.link_joined g first).link hlg.symm hfg).link hgh
        (ne_of_mem_of_not_mem hbm hf2m).symm
    · exact (link_joined _ last g).link (ne_of_mem_of_not_mem hlm hh1) hbg.symm
  · refine ring_iff.2 ⟨List.nodup_cons.2 ⟨hh2, hn2⟩, ?_, fun x hx => ?_, fun x hx => ?_, by simp⟩
    · exact ((hl2.keep_apart hg2 hf2m).keep_apart hl2m hg2).keep_first hn2 hh2
    · obtain rfl : b = x := by simpa using hx
      exact link_joined _ h b
    · have hx2 : x ∈ b :: l₂ := List.mem_of_getLast? hx
      have hj : s.Joined x h := hlasth x (by rwa [List.getLast?_append_cons])
      exact ((hj.link (ne_of_mem_of_not_mem hx2 hg2) hfh.symm).link
        (ne_of_mem_of_not_mem hx2 hl2m) hgh.symm).link (ne_of_mem_of_not_mem hx2 hh2) hbh.symm

/-! ## The textbook implementation -/

def init (h : P) (s : Links P) : Links P := s.link h h

def add (h n : P) (s : Links P) : Links P := (s.link n (s.next h)).link h n

def addTail (h n : P) (s : Links P) : Links P := s.add (s.prev h) n

def replaceInit (h g : P) (s : Links P) : Links P :=
  (((s.link g (s.next h)).link (s.prev h) g)).init h

theorem Ring.add {n : P} (hr : s.Ring h l) (hn : n ∉ h :: l) : (s.add h n).Ring h (n :: l) := by
  obtain ⟨hnh, hnl⟩ : n ≠ h ∧ n ∉ l := by simpa using hn
  have hhn := hnh.symm
  obtain ⟨hnd, hl, hf, hlast, -⟩ := ring_iff.1 hr
  obtain ⟨hhl, hndl⟩ := List.nodup_cons.1 hnd
  have hnd' : (h :: n :: l).Nodup := by simp [hhn, hhl, hnl, hndl]
  cases l with
  | nil =>
    refine .of_linked hnd' (.singleton n) rfl rfl (link_joined _ h n) ?_
    rw [Links.add, hr.next_nil]
    exact (link_joined s n h).link hnh hhn
  | cons a m =>
    rw [Links.add, hr.next_header]
    have hna : a ≠ n := ne_of_mem_of_not_mem List.mem_cons_self hnl
    have hha : a ≠ h := ne_of_mem_of_not_mem List.mem_cons_self hhl
    obtain ⟨z, hz⟩ := List.getLast?_isSome.2 (List.cons_ne_nil a m) |> Option.isSome_iff_exists.1
    have hzm : z ∈ a :: m := List.mem_of_getLast? hz
    refine .of_linked (z := z) hnd' (List.isChain_cons_cons.2 ⟨?_, ?_⟩) rfl ?_
      (link_joined _ h n) ?_
    · exact (link_joined s n a).link hnh hna
    · exact (Linked.keep_first hl hndl hnl).keep_apart hhl hnl
    · rw [List.getLast?_cons_cons, hz]
    · exact ((hlast z (by simp [hz])).link (ne_of_mem_of_not_mem hzm hnl) hha.symm).link
        (ne_of_mem_of_not_mem hzm hhl) hhn

theorem Ring.add_same {n : P} (hr : s.Ring h l) (hx : x ∉ n :: h :: l) :
    (s.add h n).SameAt s x := by
  obtain ⟨hxn, hxh, hxl⟩ : x ≠ n ∧ x ≠ h ∧ x ∉ l := by simpa using hx
  refine (link_sameAt hxh hxn).trans (link_sameAt hxn ?_)
  cases l with
  | nil => rwa [hr.next_nil]
  | cons a m =>
    rw [hr.next_header]
    exact fun he => hxl (he ▸ .head _)

theorem Ring.addTail {n : P} (hr : s.Ring h l) (hn : n ∉ h :: l) :
    (s.addTail h n).Ring h (l ++ [n]) := by
  rcases List.eq_nil_or_concat' l with rfl | ⟨m, z, rfl⟩
  · rw [Links.addTail, (ring_nil.1 hr).2]
    exact hr.add hn
  · rw [Links.addTail, hr.prev_header]
    have h1 : (s.add z n).Ring z ([n] ++ h :: m) :=
      Ring.add (Ring.rotate hr) (by simpa [or_comm, or_left_comm] using hn)
    simpa using h1.rotate

theorem Ring.addTail_same {n : P} (hr : s.Ring h l) (hx : x ∉ n :: h :: l) :
    (s.addTail h n).SameAt s x := by
  rcases List.eq_nil_or_concat' l with rfl | ⟨m, z, rfl⟩
  · rw [Links.addTail, (ring_nil.1 hr).2]
    exact hr.add_same hx
  · rw [Links.addTail, hr.prev_header]
    exact Ring.add_same (Ring.rotate hr) (by simpa [or_comm, or_left_comm] using hx)

theorem Ring.replaceInit {g : P} (hr : s.Ring h l) (hne : l ≠ []) (hg : g ∉ h :: l) :
    (s.replaceInit h g).Ring h [] ∧ (s.replaceInit h g).Ring g l := by
  obtain ⟨hgh, hgl⟩ : g ≠ h ∧ g ∉ l := by simpa using hg
  obtain ⟨hnd, hl, -⟩ := ring_iff.1 hr
  obtain ⟨hhl, hndl⟩ := List.nodup_cons.1 hnd
  refine ⟨ring_nil.2 (link_joined _ h h), ?_⟩
  obtain ⟨a, m, rfl⟩ := List.exists_cons_of_ne_nil hne
  obtain ⟨m', z, hz⟩ := (List.eq_nil_or_concat' (a :: m)).resolve_left hne
  have ham : a ∈ a :: m := .head _
  have hzm : z ∈ a :: m := by simp [hz]
  have hzh : z ≠ h := ne_of_mem_of_not_mem hzm hhl
  have hzg : z ≠ g := ne_of_mem_of_not_mem hzm hgl
  have hpz : s.prev h = z := by
    rw [hz] at hr
    exact hr.prev_header
  rw [Links.replaceInit, init, hr.next_header, hpz]
  refine .of_linked (a := a) (z := z) (List.nodup_cons.2 ⟨hgl, hndl⟩) ?_ rfl
    (by rw [hz]; simp) ?_ ?_
  · have h1 := hl.keep_first hndl hgl
    rw [hz] at h1 hndl hgl hhl ⊢
    exact (h1.keep_last hndl hgl).keep_apart hhl hhl
  · exact ((link_joined s g a).link hzg.symm (ne_of_mem_of_not_mem ham hgl)).link hgh
      (ne_of_mem_of_not_mem ham hhl)
  · exact (link_joined _ z g).link hzh hgh

theorem Ring.replaceInit_same {g : P} (hr : s.Ring h l) (hne : l ≠ []) (hx : x ∉ g :: h :: l) :
    (s.replaceInit h g).SameAt s x := by
  obtain ⟨hxg, hxh, hxl⟩ : x ≠ g ∧ x ≠ h ∧ x ∉ l := by simpa using hx
  obtain ⟨a, m, rfl⟩ := List.exists_cons_of_ne_nil hne
  obtain ⟨m', z, hz⟩ := (List.eq_nil_or_concat' (a :: m)).resolve_left hne
  have hpz : s.prev h = z := by
    rw [hz] at hr
    exact hr.prev_header
  have hxz : x ≠ z := fun he => hxl (by rw [hz, he]; simp)
  have hxa : x ≠ a := fun he => hxl (he ▸ .head _)
  rw [Links.replaceInit, init, hr.next_header, hpz]
  exact (link_sameAt hxh hxh).trans ((link_sameAt hxz hxg).trans (link_sameAt hxg hxa))

end Links

open Links

/-- Operations on circular lists, with what they promise on lists that are well linked. -/
structure ListOps (P : Type*) [DecidableEq P] where
  init : P → Links P → Links P
  link : P → P → Links P → Links P
  add : P → P → Links P → Links P
  addTail : P → P → Links P → Links P
  replaceInit : P → P → Links P → Links P
  init_ring : ∀ h s, (init h s).Ring h []
  init_same : ∀ {h s x}, x ≠ h → (init h s).SameAt s x
  link_eq : ∀ a b s, link a b s = s.link a b
  add_ring : ∀ {h n s l}, s.Ring h l → n ∉ h :: l → (add h n s).Ring h (n :: l)
  add_same : ∀ {h n s l x}, s.Ring h l → x ∉ n :: h :: l → (add h n s).SameAt s x
  addTail_ring : ∀ {h n s l}, s.Ring h l → n ∉ h :: l → (addTail h n s).Ring h (l ++ [n])
  addTail_same : ∀ {h n s l x}, s.Ring h l → x ∉ n :: h :: l → (addTail h n s).SameAt s x
  replaceInit_ring : ∀ {h g s l}, s.Ring h l → l ≠ [] → g ∉ h :: l →
    (replaceInit h g s).Ring h [] ∧ (replaceInit h g s).Ring g l
  replaceInit_same : ∀ {h g s l x}, s.Ring h l → l ≠ [] → x ∉ g :: h :: l →
    (replaceInit h g s).SameAt s x

/-- The textbook implementation keeps the promises. -/
def ListOps.pointers (P : Type*) [DecidableEq P] : ListOps P where
  init := Links.init
  link a b s := s.link a b
  add := Links.add
  addTail := Links.addTail
  replaceInit := Links.replaceInit
  init_ring h s := ring_nil.2 (link_joined s h h)
  init_same hx := link_sameAt hx hx
  link_eq _ _ _ := rfl
  add_ring := Ring.add
  add_same := Ring.add_same
  addTail_ring := Ring.addTail
  addTail_same := Ring.addTail_same
  replaceInit_ring := Ring.replaceInit
  replaceInit_same := Ring.replaceInit_same

namespace ListOps

variable {P : Type*} [DecidableEq P] (O : ListOps P) {s : Links P} {h n x : P} {l₁ l₂ : List P}

/-- **Insertion after a node** of the list of `h`. -/
theorem add_after (hr : s.Ring h (l₁ ++ x :: l₂)) (hn : n ∉ h :: (l₁ ++ x :: l₂)) :
    (O.add x n s).Ring h (l₁ ++ x :: n :: l₂) := by
  have h1 : (O.add x n s).Ring x ((n :: l₂) ++ h :: l₁) :=
    O.add_ring hr.rotate (by simp at hn ⊢; tauto)
  exact h1.rotate

/-- **Insertion before a node** of the list of `h`. -/
theorem addTail_before (hr : s.Ring h (l₁ ++ x :: l₂)) (hn : n ∉ h :: (l₁ ++ x :: l₂)) :
    (O.addTail x n s).Ring h (l₁ ++ n :: x :: l₂) := by
  have h1 : (O.addTail x n s).Ring x (l₂ ++ h :: (l₁ ++ [n])) := by
    simpa using O.addTail_ring (n := n) hr.rotate (by simp at hn ⊢; tauto)
  simpa using h1.rotate

end ListOps

end Lib
