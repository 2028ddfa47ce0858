import FjxFiber.Lib.Reach
import FjxFiber.Lib.StableQueue
import FjxFiber.Timer.Store
import Mathlib.Data.Prod.Lex

/-!
# The timer store is a stable priority queue

`Refines timer q`: the tree, the list and the cached nodes of `timer` all hold the entries of the
stable queue `q`. `insertTimeNode_spec` and `expire_spec` are the two operations;
`fiberTimer_refines` is every run from `fiber_timer_init`.
-/

set_option autoImplicit false

namespace Timer

open Lib Lib.StableQueue Lib.Links

/-! ## Deadlines are ordered -/

def Timespec.toPair (t : Timespec) : ℤ ×ₗ ℤ := toLex (t.tvSec, t.tvNsec)

theorem Timespec.toPair_injective : Function.Injective Timespec.toPair := fun p q h => by
  have h' : (p.tvSec, p.tvNsec) = (q.tvSec, q.tvNsec) := toLex.injective h
  cases p
  cases q
  simpa using h'

instance : LinearOrder Timespec := LinearOrder.lift' Timespec.toPair Timespec.toPair_injective

theorem timespecComp_eq (p q : Timespec) : timespecComp p q = decide (p < q) := by
  have h : p < q ↔ p.tvSec < q.tvSec ∨ p.tvSec = q.tvSec ∧ p.tvNsec < q.tvNsec :=
    Prod.Lex.toLex_lt_toLex
  by_cases hs : p.tvSec = q.tvSec <;> simp [timespecComp, h, hs]

/-! ## The abstraction -/

variable {α : Type*}

/-- The list links of queued nodes. -/
def linksOf (q : List (Entry Timespec α)) : List (Ptr α) := q.map fun e => .link e.val

@[simp] theorem linksOf_nil : linksOf ([] : List (Entry Timespec α)) = [] := rfl

@[simp] theorem linksOf_append (p q : List (Entry Timespec α)) :
    linksOf (p ++ q) = linksOf p ++ linksOf q := List.map_append

@[simp] theorem linksOf_cons (e : Entry Timespec α) (q : List (Entry Timespec α)) :
    linksOf (e :: q) = .link e.val :: linksOf q := rfl

/-- The tree, the list and the cached nodes hold the entries of `q`. -/
structure Refines (timer : FiberTimer α) (q : List (Entry Timespec α)) : Prop where
  stable : Stable q
  walk : timer.timeTree.inorder = q.map Entry.val
  ring : timer.links.Ring .timeList (linksOf q)
  tp : ∀ e ∈ q, timer.tp e.val = e.key
  minTime : timer.minTime = q.head?.map Entry.val
  maxTime : timer.maxTime = q.getLast?.map Entry.val

variable {timer : FiberTimer α} {q : List (Entry Timespec α)} {e : Entry Timespec α}

theorem Refines.nodup (h : Refines timer q) : (q.map Entry.val).Nodup := by
  have := h.ring.nodup
  rw [linksOf, ← Function.comp_def Ptr.link Entry.val, ← List.map_map] at this
  exact this.of_map _

/-- The walk splits at a deadline as the queue does. -/
theorem Refines.splits (h : Refines timer q) (d : Timespec) :
    timer.timeTree.Splits (fun p => timespecComp d (timer.tp p))
      ((upTo d q).map Entry.val) ((after d q).map Entry.val) where
  eq := by rw [h.walk, ← List.map_append, ← h.stable.split]
  no := by
    intro x hx
    obtain ⟨e, he, rfl⟩ := List.mem_map.1 hx
    obtain ⟨heq, hed⟩ := mem_upTo.1 he
    simpa [timespecComp_eq, h.tp e heq] using hed
  yes := by
    intro x hx
    obtain ⟨e, he, rfl⟩ := List.mem_map.1 hx
    obtain ⟨heq, hed⟩ := mem_after.1 he
    simpa [timespecComp_eq, h.tp e heq] using hed

/-! ## Insertion -/

/-- A node is linked at its place in the tree and in the list. -/
theorem Refines.inserted (h : Refines timer q) (hseq : ∀ x ∈ q, x.seq < e.seq)
    (htp : timer.tp e.val = e.key) {timer' : FiberTimer α} (ht : timer'.tp = timer.tp)
    (hwalk : timer'.timeTree.inorder = (insertStable e q).map Entry.val)
    (hring : timer'.links.Ring .timeList (linksOf (insertStable e q)))
    (hmin : timer'.minTime = if upTo e.key q = [] then some e.val else timer.minTime)
    (hmax : timer'.maxTime = if after e.key q = [] then some e.val else timer.maxTime) :
    Refines timer' (insertStable e q) where
  stable := h.stable.insertStable hseq
  walk := hwalk
  ring := hring
  tp := by
    intro x hx
    rw [ht]
    rcases mem_insertStable.1 hx with rfl | hx
    · exact htp
    · exact h.tp x hx
  minTime := by rw [hmin, h.stable.head?_insertStable, h.minTime]; split <;> rfl
  maxTime := by rw [hmax, h.stable.getLast?_insertStable, h.maxTime]; split <;> rfl

theorem Refines.fresh (hfresh : ∀ x ∈ q, x.val ≠ e.val) :
    Ptr.link e.val ∉ Ptr.timeList :: linksOf q := by
  simpa [linksOf] using fun x hx => hfresh x hx

variable [DecidableEq α] (O : ListOps (Ptr α)) (S : Splay α)

/-- A node that is linked to an empty slot between the two parts of the walk, and made the root. -/
theorem Refines.walk_link (h : Refines timer q) {a : α} {side : Side}
    (hs : timer.timeTree.slot a side = some .nil)
    (hside : (side = .left ∧ ∃ ys, (after e.key q).map Entry.val = a :: ys) ∨
      (side = .right ∧ ∃ xs, (upTo e.key q).map Entry.val = xs ++ [a])) :
    (S.top e.val (S.nodeLink e.val (.child a side) timer.timeTree)).inorder =
      (insertStable e q).map Entry.val := by
  have hl := BinTree.inorder_link (by rw [h.walk]; exact h.nodup) (h.splits e.key).eq hs hside e.val
  rw [S.nodeLink_child hs, S.top_inorder (by rw [hl]; simp), hl]
  simp [insertStable]

/-- A node that is put before the first later node of the list, or after the last other one. -/
theorem Refines.ring_link (h : Refines timer q) (hfresh : ∀ x ∈ q, x.val ≠ e.val) {a : α}
    {side : Side} (hside : (side = .left ∧ ∃ ys, (after e.key q).map Entry.val = a :: ys) ∨
      (side = .right ∧ ∃ xs, (upTo e.key q).map Entry.val = xs ++ [a])) :
    (if side = .left then O.addTail (.link a) (.link e.val) timer.links
      else O.add (.link a) (.link e.val) timer.links).Ring .timeList
      (linksOf (insertStable e q)) := by
  have hr := h.ring
  have hf := Refines.fresh hfresh
  rw [h.stable.split e.key, linksOf_append] at hr hf
  rw [insertStable, linksOf_append, linksOf_cons]
  rcases hside with ⟨rfl, ys, hys⟩ | ⟨rfl, xs, hxs⟩
  · obtain ⟨y, l, hy, rfl, -⟩ := List.map_eq_cons_iff.1 hys
    rw [hy, linksOf_cons] at hr hf ⊢
    rw [if_pos rfl]
    exact O.addTail_before hr hf
  · obtain ⟨l, l', hy, -, hl⟩ := List.map_eq_append_iff.1 hxs
    obtain ⟨y, rfl, rfl⟩ : ∃ y, l' = [y] ∧ y.val = a := by
      obtain ⟨y, m, rfl, h1, h2⟩ := List.map_eq_cons_iff.1 hl
      exact ⟨y, by simpa using h2, h1⟩
    rw [if_neg (by simp)]
    have hr' : timer.links.Ring .timeList
        (linksOf l ++ Ptr.link y.val :: linksOf (after e.key q)) := by simpa [hy, linksOf] using hr
    simpa [hy, linksOf] using O.add_after hr' (by simpa [hy, linksOf] using hf)

/-- **`insert_time_node` is stable insertion**: it links the node to an empty slot, and reports
whether the node is the first now. -/
theorem insertTimeNode_spec (h : Refines timer q) (hfresh : ∀ x ∈ q, x.val ≠ e.val)
    (hseq : ∀ x ∈ q, x.seq < e.seq) (htp : timer.tp e.val = e.key) :
    ∃ r, insertTimeNode O S e.val timer = some r ∧ r.slot.target timer.timeTree = some .nil ∧
      Refines r.timer (insertStable e q) ∧ (r.earliest = true ↔ r.timer.minTime = some e.val) := by
  have hn : timer.timeTree.inorder.Nodup := by rw [h.walk]; exact h.nodup
  have hf := Refines.fresh hfresh
  have hsplit := h.stable.split e.key
  rcases List.eq_nil_or_concat' q with hnil | ⟨q', z, hz⟩
  · -- the first node
    have htree : timer.timeTree = .nil := by simpa [hnil] using h.walk
    rw [insertTimeNode, if_pos htree]
    refine ⟨_, rfl, by simp [Slot.target, htree], h.inserted hseq htp rfl ?_ ?_ ?_ ?_, by simp⟩
    · show (S.nodeLink e.val .root timer.timeTree).inorder = _
      rw [htree, S.nodeLink_root]
      simp [hnil, insertStable, upTo, after, BinTree.leaf]
    · simpa [hnil, insertStable, upTo, after, linksOf] using O.add_ring h.ring hf
    · simp [hnil, upTo]
    · simp [hnil, after]
  obtain ⟨x, q'', hx⟩ := List.exists_cons_of_ne_nil (show q ≠ [] by simp [hz])
  have hmin : timer.minTime = some x.val := by rw [h.minTime, hx]; rfl
  have hmax : timer.maxTime = some z.val := by rw [h.maxTime, hz]; simp
  have htree : timer.timeTree ≠ .nil := fun he => by
    have := h.walk
    simp [he, hx] at this
  have hfirst : upTo e.key q = [] ↔ e.key < x.key := by
    have := h.stable
    rw [hx] at this ⊢
    exact this.upTo_eq_nil e.key
  have hlast : after e.key q = [] ↔ z.key ≤ e.key := by
    have := h.stable
    rw [hz] at this ⊢
    exact this.after_eq_nil e.key
  have hcx : timeComp timer e.val x.val = decide (e.key < x.key) := by
    rw [timeComp, timespecComp_eq, htp, h.tp x (by simp [hx])]
  have hcz : timeComp timer e.val z.val = decide (e.key < z.key) := by
    rw [timeComp, timespecComp_eq, htp, h.tp z (by simp [hz])]
  simp only [insertTimeNode, if_neg htree, hmin, hmax, Option.bind_eq_bind, Option.bind_some, hcx,
    hcz]
  by_cases h1 : e.key < x.key
  · -- before all others
    have hu := hfirst.2 h1
    have ha : after e.key q = q := by simpa [hu] using hsplit.symm
    have hs : timer.timeTree.slot x.val .left = some .nil :=
      BinTree.slot_first hn (h.walk.trans (by rw [hx]; rfl))
    rw [if_pos (by simpa using h1)]
    refine ⟨_, rfl, hs, h.inserted hseq htp rfl ?_ ?_ ?_ ?_, by simp⟩
    · exact h.walk_link S hs (.inl ⟨rfl, by rw [ha, hx]; exact ⟨_, rfl⟩⟩)
    · simpa [insertStable, hu, ha] using O.add_ring h.ring hf
    · simp [hu]
    · have hne : q ≠ [] := by simp [hx]
      simp [ha, hne, hmax]
  have hu : upTo e.key q ≠ [] := fun hu => h1 (hfirst.1 hu)
  by_cases h2 : e.key < z.key
  · -- between two others
    have ha : after e.key q ≠ [] := fun ha => absurd h2 (not_lt_of_ge (hlast.1 ha))
    obtain ⟨p, side, hd, hs, hside⟩ := BinTree.descend_spec (h.splits e.key) hn htree none
    have hd' : timer.timeTree.descend (timeComp timer e.val) none = some (p, side) := by
      rw [← hd]
      congr 1
      funext y
      rw [timeComp, htp]
    rw [if_neg (by simpa using h1), if_neg (by simpa using h2), hd']
    refine ⟨_, rfl, hs, h.inserted hseq htp rfl ?_ ?_ ?_ ?_, ?_⟩
    · exact h.walk_link S hs hside
    · exact h.ring_link O hfresh hside
    · simp [hu, hmin]
    · simp [ha, hmax]
    · simpa using hfresh x (by simp [hx])
  · -- after all others
    have ha := hlast.2 (le_of_not_gt h2)
    have hu' : upTo e.key q = q := by simpa [ha] using hsplit.symm
    have hs : timer.timeTree.slot z.val .right = some .nil :=
      BinTree.slot_last hn (h.walk.trans (by rw [hz, List.map_append]; rfl))
    rw [if_neg (by simpa using h1), if_pos (by simpa using h2)]
    refine ⟨_, rfl, hs, h.inserted hseq htp rfl ?_ ?_ ?_ ?_, ?_⟩
    · exact h.walk_link S hs (.inr ⟨rfl, by rw [hu', hz, List.map_append]; exact ⟨_, rfl⟩⟩)
    · simpa [insertStable, ha, hu'] using O.addTail_ring h.ring hf
    · simp [hu, hmin]
    · simp [ha]
    · simpa [hmin] using hfresh x (by simp [hx])

/-! ## Expiry -/

omit [DecidableEq α] in
theorem awakeList_notMem (q : List (Entry Timespec α)) :
    Ptr.awakeList ∉ Ptr.timeList :: linksOf q := by
  simp [linksOf]

/-- The tree that expiry leaves: the first later node, without what hangs to its left. -/
theorem Refines.walk_cut (h : Refines timer q) {cur : Timespec} {y : Entry Timespec α}
    {l : List (Entry Timespec α)} (hy : after cur q = y :: l) :
    ((S.top y.val timer.timeTree).setChild y.val .left .nil).inorder =
      (after cur q).map Entry.val := by
  have hw : timer.timeTree.inorder =
      (upTo cur q).map Entry.val ++ y.val :: l.map Entry.val := by
    rw [(h.splits cur).eq, hy]
    rfl
  have hmem : y.val ∈ timer.timeTree.inorder := by simp [hw]
  obtain ⟨a, b, htop⟩ := S.top_root hmem
  have hin := S.top_inorder hmem
  rw [htop, BinTree.inorder_node, hw] at hin
  have hn : (a.inorder ++ y.val :: b.inorder).Nodup := by
    rw [hin, ← hw, h.walk]
    exact h.nodup
  simp [htop, BinTree.setChild, hy, (BinTree.split_unique hn hin).2]

/-- **A pass of the timer thread** takes the entries up to `cur`, in order, and leaves the
others. -/
theorem expire_spec (h : Refines timer q) {cur : Timespec} {x : Entry Timespec α}
    (hx : q.head? = some x) (hcur : x.key ≤ cur) :
    ∃ r, expire O S cur timer = some r ∧ r.links.Ring .awakeList (linksOf (upTo cur q)) ∧
      Refines r (after cur q) := by
  have hring : (O.init .awakeList timer.links).Ring .timeList (linksOf q) :=
    h.ring.congr fun p hp => O.init_same (ne_of_mem_of_not_mem hp (awakeList_notMem q))
  have hsplit := h.stable.split cur
  have hne : q ≠ [] := fun he => by simp [he] at hx
  obtain ⟨q', z, hz⟩ := (List.eq_nil_or_concat' q).resolve_left hne
  have hmax : timer.maxTime = some z.val := by rw [h.maxTime, hz]; simp
  have hlast : after cur q = [] ↔ z.key ≤ cur := by
    have := h.stable
    rw [hz] at this ⊢
    exact this.after_eq_nil cur
  have hcz : timespecComp cur (timer.tp z.val) = decide (cur < z.key) := by
    rw [timespecComp_eq, h.tp z (by simp [hz])]
  simp only [expire, hmax, Option.bind_eq_bind, Option.bind_some, hcz]
  by_cases hle : z.key ≤ cur
  · -- everything is due
    have ha := hlast.2 hle
    have hu : upTo cur q = q := by simpa [ha] using hsplit.symm
    rw [if_pos (by simpa using hle)]
    have hl : linksOf q ≠ [] := by simpa [linksOf] using hne
    obtain ⟨h1, h2⟩ := O.replaceInit_ring hring hl (awakeList_notMem q)
    rw [ha, hu]
    exact ⟨_, rfl, h2, .nil, rfl, h1, by simp, rfl, rfl⟩
  · -- the list is cut before the first later node
    obtain ⟨y, l, hy⟩ := List.exists_cons_of_ne_nil fun ha => hle (hlast.1 ha)
    have hu : upTo cur q ≠ [] := fun hu => by
      have : x ∈ upTo cur q := mem_upTo.2 ⟨List.mem_of_mem_head? hx, hcur⟩
      simp [hu] at this
    obtain ⟨u, w, hw⟩ := (List.eq_nil_or_concat' (upTo cur q)).resolve_left hu
    have hup : timer.timeTree.upper (fun p => timespecComp cur (timer.tp p)) none = some y.val := by
      rw [BinTree.upper_spec (h.splits cur), hy]
      rfl
    obtain ⟨v, u', hv⟩ := List.exists_cons_of_ne_nil hu
    have hring' : (O.init .awakeList timer.links).Ring .timeList
        (linksOf (upTo cur q) ++ .link y.val :: linksOf l) := by
      rwa [hsplit, linksOf_append, hy, linksOf_cons] at hring
    have hfirst : (O.init .awakeList timer.links).next .timeList = .link v.val := by
      rw [hv] at hring'
      exact hring'.next_header
    have hprev : (O.init .awakeList timer.links).prev (.link y.val) = .link w.val := by
      rw [hw, linksOf_append, linksOf_cons, linksOf_nil, List.append_assoc] at hring'
      exact hring'.prev_node
    have hnot : Ptr.awakeList ∉ Ptr.timeList :: (linksOf (upTo cur q) ++
        .link y.val :: linksOf l) := by
      have := awakeList_notMem q
      rwa [hsplit, linksOf_append, hy, linksOf_cons] at this
    have hw' : (linksOf (upTo cur q)).getLast? = some (.link w.val) := by rw [hw]; simp [linksOf]
    have hv' : (linksOf (upTo cur q)).head? = some (.link v.val) := by rw [hv]; rfl
    obtain ⟨hawake, htime⟩ := hring'.cut hnot hv' hw'
    have hz' : (after cur q).getLast? = some z := by
      have h1 : q.getLast? = some z := by simp [hz]
      rwa [hsplit, hy, List.getLast?_append_cons, ← hy] at h1
    simp only [if_neg (show ¬ ((!decide (cur < z.key)) = true) by simpa using hle), hup,
      Option.bind_some, O.link_eq, hfirst, hprev]
    refine ⟨_, rfl, hawake, h.stable.after cur, h.walk_cut S hy, ?_, fun e he => ?_, ?_, ?_⟩
    · rw [hy]
      exact htime
    · exact h.tp e (mem_after.1 he).1
    · rw [hy]
      rfl
    · rw [hz']
      rfl

/-! ## Every sequence of insertions and passes -/

/-- The timer with the abstract queue, and the number of insertions so far. -/
structure State (α : Type*) where
  timer : FiberTimer α
  queue : List (Entry Timespec α)
  count : Nat

/-- Deadlines are written when a node is made. -/
def setTp (node : α) (tp : Timespec) (timer : FiberTimer α) : FiberTimer α :=
  { timer with tp := Function.update timer.tp node tp }

inductive Step : State α → State α → Prop
  /-- A node that is not in the store is inserted. -/
  | insert {s : State α} {r : Inserted α} (node : α) (tp : Timespec)
      (hfresh : node ∉ s.timer.timeTree.inorder)
      (hr : insertTimeNode O S node (setTp node tp s.timer) = some r) :
      Step s {
        timer := r.timer
        queue := insertStable ⟨tp, s.count, node⟩ s.queue
        count := s.count + 1 }
  /-- A pass at a clock reading that is not before the first deadline. -/
  | expire {s : State α} {m : α} {timer : FiberTimer α} (cur : Timespec)
      (hmin : s.timer.minTime = some m) (hcur : timespecComp cur (s.timer.tp m) = false)
      (hr : expire O S cur s.timer = some timer) :
      Step s { s with timer, queue := after cur s.queue }
  /-- Nodes that are not in the store are linked elsewhere. -/
  | relink {s : State α} (links : Links (Ptr α))
      (hkeep : ∀ p, p = .timeList ∨ (∃ a ∈ s.timer.timeTree.inorder, p = .link a) →
        links.SameAt s.timer.links p) :
      Step s { s with timer := { s.timer with links } }

/-- The states of a timer from `fiber_timer_init`. -/
abbrev Reached : State α → Prop :=
  Reachable (fun s => ∃ timer, s = ⟨fiberTimerInit O timer, [], 0⟩) (Step O S)

/-- The timer refines the queue, whose entries arrived before the next one. -/
structure Inv (s : State α) : Prop where
  refines : Refines s.timer s.queue
  seq : ∀ x ∈ s.queue, x.seq < s.count

omit [DecidableEq α] in
theorem Refines.notMem (h : Refines timer q) {a : α} (ha : a ∉ timer.timeTree.inorder) :
    ∀ x ∈ q, x.val ≠ a := by
  rw [h.walk] at ha
  exact fun x hx he => ha (he ▸ List.mem_map_of_mem hx)

theorem Refines.setTp (h : Refines timer q) {a : α} (ha : a ∉ timer.timeTree.inorder)
    (tp : Timespec) : Refines (setTp a tp timer) q := by
  refine ⟨h.stable, h.walk, h.ring, fun e he => ?_, h.minTime, h.maxTime⟩
  have hne := h.notMem ha e he
  simp [Timer.setTp, hne, h.tp e he]

omit [DecidableEq α] in
theorem Refines.relink (h : Refines timer q) {links : Links (Ptr α)}
    (hkeep : ∀ p, p = .timeList ∨ (∃ a ∈ timer.timeTree.inorder, p = .link a) →
      links.SameAt timer.links p) : Refines { timer with links } q := by
  refine ⟨h.stable, h.walk, h.ring.congr fun p hp => hkeep p ?_, h.tp, h.minTime, h.maxTime⟩
  rw [h.walk]
  rcases List.mem_cons.1 hp with rfl | hp
  · exact .inl rfl
  · obtain ⟨e, he, rfl⟩ := List.mem_map.1 hp
    exact .inr ⟨e.val, List.mem_map_of_mem he, rfl⟩

/-- The insertion of a new node, from any state that refines its queue. -/
theorem Inv.insert {s : State α} (h : Inv s) {node : α} (tp : Timespec)
    (hfresh : node ∉ s.timer.timeTree.inorder) :
    ∃ r, insertTimeNode O S node (setTp node tp s.timer) = some r ∧
      r.slot.target s.timer.timeTree = some .nil ∧
      Refines r.timer (insertStable ⟨tp, s.count, node⟩ s.queue) := by
  obtain ⟨r, hr, hslot, href, -⟩ := insertTimeNode_spec (e := ⟨tp, s.count, node⟩) O S
    (h.refines.setTp hfresh tp) (h.refines.notMem hfresh) h.seq (Function.update_self ..)
  exact ⟨r, hr, hslot, href⟩

/-- A pass, from any state that refines its queue. -/
theorem Inv.expire {s : State α} (h : Inv s) {m : α} {cur : Timespec}
    (hmin : s.timer.minTime = some m) (hcur : timespecComp cur (s.timer.tp m) = false) :
    ∃ r, Timer.expire O S cur s.timer = some r ∧
      r.links.Ring .awakeList (linksOf (upTo cur s.queue)) ∧ Refines r (after cur s.queue) := by
  obtain ⟨x, hx, rfl⟩ : ∃ x, s.queue.head? = some x ∧ x.val = m := by
    rw [h.refines.minTime] at hmin
    simpa using hmin
  refine expire_spec O S h.refines hx ?_
  rw [h.refines.tp x (List.mem_of_mem_head? hx), timespecComp_eq] at hcur
  simpa using hcur

theorem Inv.step {s s' : State α} (h : Inv s) (hs : Step O S s s') : Inv s' := by
  cases hs with
  | insert node tp hfresh hr =>
    obtain ⟨r, hr', -, href⟩ := h.insert O S tp hfresh
    obtain rfl := Option.some.inj (hr.symm.trans hr')
    refine ⟨href, fun x hx => ?_⟩
    rcases mem_insertStable.1 hx with rfl | hx
    · exact Nat.lt_succ_self _
    · exact Nat.lt_succ_of_lt (h.seq x hx)
  | expire cur hmin hcur hr =>
    obtain ⟨r, hr', -, href⟩ := h.expire O S hmin hcur
    obtain rfl := Option.some.inj (hr.symm.trans hr')
    exact ⟨href, fun x hx => h.seq x (mem_after.1 hx).1⟩
  | relink links hkeep => exact ⟨h.refines.relink hkeep, h.seq⟩

theorem Reached.inv {s : State α} (h : Reached O S s) : Inv s := by
  refine h.invariant (fun s hs => ?_) fun s s' hs hstep => hs.step O S hstep
  obtain ⟨timer, rfl⟩ := hs
  exact ⟨⟨.nil, rfl, O.init_ring .timeList timer.links, by simp, rfl, rfl⟩, by simp⟩

/-- **The timer store is a stable sorted queue**, after every sequence of insertions and passes of
the timer thread. The tree, the list and the cached nodes hold the queue; inserting a node that is
not in the store links it to an empty slot and is stable insertion; a pass whose clock reading is
not before the first deadline puts the entries up to the reading on `awake_list`, in order, and
leaves the others. -/
theorem fiberTimer_refines {s : State α} (h : Reached O S s) :
    (Stable s.queue ∧ s.timer.timeTree.inorder = s.queue.map Entry.val ∧
      s.timer.links.Ring .timeList (linksOf s.queue) ∧
      (∀ e ∈ s.queue, s.timer.tp e.val = e.key) ∧
      s.timer.minTime = s.queue.head?.map Entry.val ∧
      s.timer.maxTime = s.queue.getLast?.map Entry.val) ∧
    (∀ (node : α) (tp : Timespec), node ∉ s.timer.timeTree.inorder →
      ∃ r, insertTimeNode O S node (setTp node tp s.timer) = some r ∧
        r.slot.target s.timer.timeTree = some .nil ∧
        Refines r.timer (insertStable ⟨tp, s.count, node⟩ s.queue)) ∧
    (∀ (m : α) (cur : Timespec), s.timer.minTime = some m →
      timespecComp cur (s.timer.tp m) = false →
      ∃ r, expire O S cur s.timer = some r ∧
        r.links.Ring .awakeList (linksOf (upTo cur s.queue)) ∧
        Refines r (after cur s.queue)) := by
  have hI := Reached.inv O S h
  obtain ⟨h1, h2, h3, h4, h5, h6⟩ := hI.refines
  exact ⟨⟨h1, h2, h3, h4, h5, h6⟩, fun _ tp hf => hI.insert O S tp hf,
    fun _ _ hm hc => hI.expire O S hm hc⟩

/-- Three nodes are inserted, two of them with the same deadline, and the first pass takes one. -/
theorem fiberTimer_refines_run : ∃ s : State Nat,
    Reached (.pointers (Ptr Nat)) (.rotations Nat) s ∧ s.timer.timeTree.inorder = [0, 2] := by
  let timer : FiberTimer Nat :=
    { timeTree := .nil, minTime := none, maxTime := none, links := ⟨id, id⟩,
      tp := fun _ => ⟨0, 0⟩ }
  have h0 : Reached (.pointers (Ptr Nat)) (.rotations Nat) ⟨fiberTimerInit _ timer, [], 0⟩ :=
    .start ⟨timer, rfl⟩
  obtain ⟨r1, e1, -, (f1 : Refines r1.timer [⟨⟨5, 0⟩, 0, 0⟩])⟩ :=
    (fiberTimer_refines _ _ h0).2.1 0 ⟨5, 0⟩ (by simp [fiberTimerInit])
  have h1 := h0.next (.insert 0 ⟨5, 0⟩ (by simp [fiberTimerInit]) e1)
  have n1 : 1 ∉ r1.timer.timeTree.inorder := by rw [f1.walk]; decide
  obtain ⟨r2, e2, -, (f2 : Refines r2.timer [⟨⟨3, 0⟩, 1, 1⟩, ⟨⟨5, 0⟩, 0, 0⟩])⟩ :=
    (fiberTimer_refines _ _ h1).2.1 1 ⟨3, 0⟩ n1
  have h2 := h1.next (.insert 1 ⟨3, 0⟩ n1 e2)
  have n2 : 2 ∉ r2.timer.timeTree.inorder := by rw [f2.walk]; decide
  obtain ⟨r3, e3, -, (f3 : Refines r3.timer
    [⟨⟨3, 0⟩, 1, 1⟩, ⟨⟨5, 0⟩, 0, 0⟩, ⟨⟨5, 0⟩, 2, 2⟩])⟩ :=
    (fiberTimer_refines _ _ h2).2.1 2 ⟨5, 0⟩ n2
  have h3 := h2.next (.insert 2 ⟨5, 0⟩ n2 e3)
  have hm : r3.timer.minTime = some 1 := by rw [f3.minTime]; rfl
  have hc : timespecComp ⟨4, 0⟩ (r3.timer.tp 1) = false := by
    rw [f3.tp ⟨⟨3, 0⟩, 1, 1⟩ (by decide)]
    rfl
  obtain ⟨r4, e4, -, (f4 : Refines r4 [⟨⟨5, 0⟩, 0, 0⟩, ⟨⟨5, 0⟩, 2, 2⟩])⟩ :=
    (fiberTimer_refines _ _ h3).2.2 1 ⟨4, 0⟩ hm hc
  exact ⟨_, h3.next (.expire ⟨4, 0⟩ hm hc e4), by rw [f4.walk]; rfl⟩

end Timer
