import FjxFiber.Sched.EnqueueList
import Mathlib.Data.List.Count

/-!
# The invariant of `enqueue_fiber_list`

`Inv`: at every step the lists hold what `Hands` says. While the call walks its two lists in
lockstep (`Walked`) nothing is known of the nodes behind it: they belong to others, and the
headers still name them. No node that was handed over is one the call may still use.
-/

set_option autoImplicit false

namespace Sched.EnqueueList

open Lib Links

variable {P V : Type*} {H : Headers P} {c c' : Config P V}

/-! ## The invariant -/

/-- What the links of the call's own nodes look like at each of its steps. -/
def Walked (H : Headers P) (s : Links P) (fibers threads : List P) : Pc P → Prop
  | .init | .loop | .lock | .idleTest | .append | .takeThreads => s.Ring H.fiberList fibers
  | .first => s.Ring H.fiberList fibers ∧ s.Ring H.threadList threads
  | .walk ix iy | .read ix iy | .after ix iy =>
      s.Rest H.fiberList ix fibers ∧ s.Rest H.threadList iy threads
  | .store ix iy tix tiy => ∃ fs ths, fibers = ix :: fs ∧ threads = iy :: ths ∧
      s.Rest H.fiberList tix fs ∧ s.Rest H.threadList tiy ths
  | .signal _ _ tix tiy => s.Rest H.fiberList tix fibers ∧ s.Rest H.threadList tiy threads
  | .relock | .queueTest | .putBack | .takeFibers => s.Ring H.threadList threads
  | .ret => True

/-- What is known of the contents at each step. -/
def Known (a : Hands P) : Pc P → Prop
  | .init | .loop => a.threads = []
  | .lock | .idleTest => a.threads = [] ∧ a.fibers ≠ []
  | .append => a.threads = [] ∧ a.fibers ≠ [] ∧ a.idle = []
  | .takeThreads => a.threads = [] ∧ a.fibers ≠ [] ∧ a.idle ≠ []
  | .read _ _ => a.fibers ≠ [] ∧ a.threads ≠ []
  | .after _ _ => a.fibers = [] ∨ a.threads = []
  | .relock | .queueTest => a.fibers = [] ∧ a.threads ≠ []
  | .putBack => a.fibers = [] ∧ a.threads ≠ [] ∧ a.queue = []
  | .takeFibers => a.fibers = [] ∧ a.threads ≠ [] ∧ a.queue ≠ []
  | .ret => a.fibers = [] ∧ a.threads = []
  | _ => True

namespace Config

/-- All nodes that the call may still use. -/
def owned (H : Headers P) (c : Config P V) : List P := c.held H ++ c.shared H

end Config

structure Inv (H : Headers P) (c : Config P V) : Prop where
  nodup : (c.owned H).Nodup
  apart : ∀ x ∈ c.hands.released, x ∉ c.owned H
  queue : c.links.Ring H.schedFiberList c.hands.queue
  idle : c.links.Ring H.idleThreadList c.hands.idle
  walked : Walked H c.links c.hands.fibers c.hands.threads c.pc
  known : Known c.hands c.pc

/-! ## Lists without a node in common -/

theorem mem_held_fibers {x : P} (hx : x ∈ H.fiberList :: c.hands.fibers) : x ∈ c.held H :=
  List.mem_append_left _ (List.mem_append_left _ hx)

theorem mem_held_threads {x : P} (hx : x ∈ H.threadList :: c.hands.threads) : x ∈ c.held H :=
  List.mem_append_left _ (List.mem_append_right _ hx)

theorem held_disjoint (hn : (c.owned H).Nodup) {x : P}
    (hx : x ∈ c.shared H) : x ∉ c.held H :=
  fun hh => (List.nodup_append.1 hn).2.2 x hh x hx rfl

theorem threads_apart (hn : (c.owned H).Nodup) {x : P} (hx : x ∈ H.fiberList :: c.hands.fibers) :
    x ∉ H.threadList :: c.hands.threads := by
  obtain ⟨hn, -, -⟩ := List.nodup_append.1 (List.nodup_append.1 hn).1
  exact fun hx' => (List.nodup_append.1 hn).2.2 x hx x hx' rfl

/-- The lists that the call splices, and what it leaves alone meanwhile. -/
theorem owned_parts (hn : (c.owned H).Nodup) :
    (H.schedFiberList :: c.hands.queue ++ H.fiberList :: c.hands.fibers).Nodup ∧
      (H.idleThreadList :: c.hands.idle ++ H.threadList :: c.hands.threads).Nodup ∧
      ∀ x ∈ H.idleThreadList :: c.hands.idle ++ H.threadList :: c.hands.threads,
        x ∉ H.schedFiberList :: c.hands.queue ++ H.fiberList :: c.hands.fibers := by
  unfold Config.owned Config.held Config.shared at hn
  generalize H.fiberList :: c.hands.fibers = F, H.threadList :: c.hands.threads = T,
    H.schedFiberList :: c.hands.queue = Q, H.idleThreadList :: c.hands.idle = I at hn ⊢
  simp only [List.nodup_append, List.mem_append] at hn ⊢
  refine ⟨?_, ?_, ?_⟩
  · grind
  · grind
  · grind

theorem queue_fibers_subset :
    H.schedFiberList :: c.hands.queue ++ H.fiberList :: c.hands.fibers ⊆ c.owned H := by
  intro x hx
  rcases List.mem_append.1 hx with hx | hx
  · exact List.mem_append_right _ (List.mem_append_left _ hx)
  · exact List.mem_append_left _ (mem_held_fibers hx)

theorem idle_threads_subset :
    H.idleThreadList :: c.hands.idle ++ H.threadList :: c.hands.threads ⊆ c.owned H := by
  intro x hx
  rcases List.mem_append.1 hx with hx | hx
  · exact List.mem_append_right _ (List.mem_append_right _ hx)
  · exact List.mem_append_left _ (mem_held_threads hx)

theorem fiberList_not_mem (hn : (c.owned H).Nodup) :
    H.fiberList ∉ H.schedFiberList :: c.hands.queue :=
  fun hx => (List.nodup_append.1 (owned_parts hn).1).2.2 _ hx _ (.head _) rfl

theorem threadList_not_mem (hn : (c.owned H).Nodup) :
    H.threadList ∉ H.idleThreadList :: c.hands.idle :=
  fun hx => (List.nodup_append.1 (owned_parts hn).2.1).2.2 _ hx _ (.head _) rfl

theorem Walked.congr {s s' : Links P} {fs ths : List P} {pc : Pc P} (h : Walked H s fs ths pc)
    (hf : ∀ x ∈ H.fiberList :: fs, s'.SameAt s x)
    (ht : ∀ x ∈ H.threadList :: ths, s'.SameAt s x) : Walked H s' fs ths pc := by
  cases pc with
  | init | loop | lock | idleTest | append | takeThreads => exact Links.Ring.congr h hf
  | first => exact ⟨h.1.congr hf, h.2.congr ht⟩
  | walk | read | after | signal => exact ⟨h.1.congr hf, h.2.congr ht⟩
  | relock | queueTest | putBack | takeFibers => exact Links.Ring.congr h ht
  | ret => trivial
  | store ix iy tix tiy =>
    obtain ⟨fs', ths', rfl, rfl, h1, h2⟩ := h
    refine ⟨fs', ths', rfl, rfl, h1.congr fun x hx => hf x ?_, h2.congr fun x hx => ht x ?_⟩
    · simp only [List.mem_cons] at hx ⊢
      tauto
    · simp only [List.mem_cons] at hx ⊢
      tauto

/-! ## A step of the call -/

/-- A step that does not hand anything over. -/
theorem Inv.regroup (h : Inv H c) (hp : (c'.owned H).Perm (c.owned H))
    (hr : c'.hands.released = c.hands.released)
    (hq : c'.links.Ring H.schedFiberList c'.hands.queue)
    (hi : c'.links.Ring H.idleThreadList c'.hands.idle)
    (hw : Walked H c'.links c'.hands.fibers c'.hands.threads c'.pc)
    (hk : Known c'.hands c'.pc) : Inv H c' := by
  refine ⟨hp.nodup_iff.2 h.nodup, fun x hx => ?_, hq, hi, hw, hk⟩
  rw [hp.mem_iff]
  exact h.apart x (hr ▸ hx)

/-- A step that writes at most the links of the call's own nodes. -/
theorem Inv.inside (h : Inv H c) (hc : c'.hands = c.hands) (hg : c'.pc.giving = c.pc.giving)
    (hl : ∀ x ∉ c.held H, c'.links.SameAt c.links x)
    (hw : Walked H c'.links c.hands.fibers c.hands.threads c'.pc)
    (hk : Known c.hands c'.pc) : Inv H c' := by
  have hsh : ∀ x ∈ c.shared H, c'.links.SameAt c.links x :=
    fun x hx => hl x (held_disjoint h.nodup hx)
  refine h.regroup ?_ ?_ ?_ ?_ ?_ ?_
  · rw [Config.owned, Config.owned, Config.held, Config.held, Config.shared, Config.shared, hc, hg]
  · rw [hc]
  · rw [hc]
    exact h.queue.congr fun x hx => hsh x (List.mem_append_left _ hx)
  · rw [hc]
    exact h.idle.congr fun x hx => hsh x (List.mem_append_right _ hx)
  · rw [hc]
    exact hw
  · rw [hc]
    exact hk

/-- A step that writes no links and hands nothing over. -/
theorem Inv.goto (h : Inv H c) (hc : c'.hands = c.hands) (hg : c'.pc.giving = c.pc.giving)
    (hl : c'.links = c.links) (hw : Walked H c.links c.hands.fibers c.hands.threads c'.pc)
    (hk : Known c.hands c'.pc) : Inv H c' := by
  refine h.inside hc hg (fun x _ => ?_) ?_ hk
  · rw [hl]
    exact .refl _ x
  · rw [hl]
    exact hw

theorem Start.inv (h : Start H c) : Inv H c := by
  refine ⟨h.nodup, fun x hx => ?_, h.queue, h.idle, ?_, ?_⟩
  · rw [h.released] at hx
    exact nomatch hx
  · rw [h.pc]
    exact h.fibers
  · rw [h.pc]
    exact h.threads

/-! ## The steps -/

variable [DecidableEq P] {O : SpliceOps P} {s : Links P} {top top' : P → V} {a : Hands P}
  {log log' : List (Event P V)} {ix iy tix tiy : P}

theorem Inv.others (h : Inv H c) (ho : Others H c c') : Inv H c' := by
  refine ⟨ho.nodup, fun x hx => ?_, ho.queue, ho.idle, ?_, ?_⟩
  · rw [ho.released, List.mem_filter, decide_eq_true_iff] at hx
    have hheld : c'.held H = c.held H := by
      rw [Config.held, Config.held, ho.fibers, ho.threads, ho.pc]
    rw [Config.owned, List.mem_append, not_or, hheld]
    exact ⟨fun hx' => h.apart x hx.1 (List.mem_append_left _ hx'), hx.2⟩
  · rw [ho.fibers, ho.threads, ho.pc]
    exact h.walked.congr (fun x hx => ho.links x (mem_held_fibers hx))
      fun x hx => ho.links x (mem_held_threads hx)
  · have hk := h.known
    have hl := ho.locked
    rw [ho.pc]
    cases hpc : c.pc <;> rw [hpc] at hk hl <;>
      simp_all [Known, Pc.locked, ho.fibers, ho.threads]

theorem Inv.init (h : Inv H ⟨⟨.init, s, top⟩, a, log⟩) :
    Inv H ⟨⟨.loop, O.init H.threadList s, top⟩, a, log'⟩ := by
  have hs : ∀ x ≠ H.threadList, (O.init H.threadList s).SameAt s x := fun x hx => O.init_same hx
  refine h.inside rfl rfl (fun x hx => hs x ?_) ?_ h.known
  · exact (ne_of_mem_of_not_mem (mem_held_threads (.head _)) hx).symm
  · refine Links.Ring.congr h.walked fun x hx => hs x ?_
    exact fun he => threads_apart h.nodup hx (he ▸ .head _)

/-- `fjx_list_link(fiber_list, ix)`. -/
theorem Inv.closeFibers (h : Inv H ⟨⟨.after ix iy, s, top⟩, a, log⟩) (hix : ix ≠ H.fiberList) :
    Inv H ⟨⟨.loop, s.link H.fiberList ix, top⟩, a, log'⟩ := by
  have hw : s.Rest H.fiberList ix a.fibers := h.walked.1
  have hk : a.fibers = [] ∨ a.threads = [] := h.known
  refine h.inside rfl rfl (fun x hx => link_sameAt ?_ ?_) hw.close ?_
  · exact (ne_of_mem_of_not_mem (mem_held_fibers (.head _)) hx).symm
  · exact (ne_of_mem_of_not_mem (mem_held_fibers hw.mem) hx).symm
  · exact hk.resolve_left fun he => hix (hw.at_header.2 he)

/-- `fjx_list_link(&thread_list, iy)`. -/
theorem Inv.closeThreads (h : Inv H ⟨⟨.after ix iy, s, top⟩, a, log⟩) (hix : ix = H.fiberList)
    (hiy : iy ≠ H.threadList) : Inv H ⟨⟨.relock, s.link H.threadList iy, top⟩, a, log'⟩ := by
  have hwf : s.Rest H.fiberList ix a.fibers := h.walked.1
  have hw : s.Rest H.threadList iy a.threads := h.walked.2
  refine h.inside rfl rfl (fun x hx => link_sameAt ?_ ?_) hw.close ⟨hwf.at_header.1 hix, ?_⟩
  · exact (ne_of_mem_of_not_mem (mem_held_threads (.head _)) hx).symm
  · exact (ne_of_mem_of_not_mem (mem_held_threads hw.mem) hx).symm
  · exact fun he => hiy (hw.at_header.2 he)

/-- The `stack_top` is stored: the fiber and the thread leave the lists. -/
theorem Inv.store (h : Inv H ⟨⟨.store ix iy tix tiy, s, top⟩, a, log⟩) :
    Inv H ⟨⟨.signal ix iy tix tiy, s, top'⟩, a.after (.store ix iy tix tiy), log'⟩ := by
  obtain ⟨queue, idle, fibers, threads, released⟩ := a
  obtain ⟨fs, ths, rfl, rfl, hrf, hrt⟩ := h.walked
  refine h.regroup ?_ rfl h.queue h.idle ?_ trivial
  · simp only [Config.owned, Config.held, Config.shared, Hands.after, Pc.giving,
      List.erase_cons_head, List.perm_iff_count, List.count_append, List.count_cons, List.count_nil]
    omega
  · simpa only [Hands.after, List.erase_cons_head] using ⟨hrf, hrt⟩

theorem Inv.signal (h : Inv H ⟨⟨.signal ix iy tix tiy, s, top⟩, a, log⟩) :
    Inv H ⟨⟨.walk tix tiy, s, top⟩, a.after (.signal ix iy tix tiy), log'⟩ := by
  obtain ⟨hn, hap, hq, hi, hw, -⟩ := h
  have hp : (Config.owned H ⟨⟨.signal ix iy tix tiy, s, top⟩, a, log⟩).Perm
      (ix :: iy :: Config.owned H ⟨⟨.walk tix tiy, s, top⟩,
        a.after (.signal ix iy tix tiy), log'⟩) := by
    simp only [Config.owned, Config.held, Config.shared, Hands.after, Pc.giving,
      List.perm_iff_count, List.count_append, List.count_cons, List.count_nil]
    omega
  obtain ⟨hix, hn'⟩ := List.nodup_cons.1 (hp.nodup_iff.1 hn)
  obtain ⟨hiy, hn''⟩ := List.nodup_cons.1 hn'
  refine ⟨hn'', fun x hx => ?_, hq, hi, hw, trivial⟩
  -- the two nodes have just been handed over, or were before
  rcases List.mem_cons.1 hx with rfl | hx
  · exact fun hx => hix (.tail _ hx)
  · rcases List.mem_cons.1 hx with rfl | hx
    · exact hiy
    · exact fun hx' => hap x hx (hp.mem_iff.2 (.tail _ (.tail _ hx')))

theorem Inv.append (h : Inv H ⟨⟨.append, s, top⟩, a, log⟩) :
    Inv H ⟨⟨.ret, O.addListTail H.schedFiberList H.fiberList s, top⟩, a.after .append, log'⟩ := by
  obtain ⟨hqf, -, hdis⟩ := owned_parts h.nodup
  obtain ⟨ht, hf, -⟩ : a.threads = [] ∧ a.fibers ≠ [] ∧ a.idle = [] := h.known
  have hw := O.addListTail_within h.queue h.walked hf hqf
  refine h.regroup ?_ rfl (O.addListTail_ring h.queue h.walked hf hqf) ?_ trivial ⟨rfl, ht⟩
  · simp only [Config.owned, Config.held, Config.shared, Hands.after, Pc.giving,
      List.perm_iff_count, List.count_append, List.count_cons, List.count_nil]
    omega
  · exact h.idle.congr fun x hx => hw.same (hdis x (List.mem_append_left _ hx))

theorem Inv.putBack (h : Inv H ⟨⟨.putBack, s, top⟩, a, log⟩) :
    Inv H ⟨⟨.ret, O.addList H.idleThreadList H.threadList s, top⟩, a.after .putBack, log'⟩ := by
  obtain ⟨-, hit, hdis⟩ := owned_parts h.nodup
  obtain ⟨hf, ht, -⟩ : a.fibers = [] ∧ a.threads ≠ [] ∧ a.queue = [] := h.known
  have hw := O.addList_within h.idle h.walked ht hit
  refine h.regroup ?_ rfl ?_ (O.addList_ring h.idle h.walked ht hit) trivial ⟨hf, rfl⟩
  · simp only [Config.owned, Config.held, Config.shared, Hands.after, Pc.giving,
      List.perm_iff_count, List.count_append, List.count_cons, List.count_nil]
    omega
  · exact h.queue.congr fun x hx => hw.same fun hx' => hdis x hx' (List.mem_append_left _ hx)

theorem Inv.takeThreads (h : Inv H ⟨⟨.takeThreads, s, top⟩, a, log⟩) :
    Inv H ⟨⟨.first, O.replaceInit H.idleThreadList H.threadList s, top⟩,
      a.after .takeThreads, log'⟩ := by
  obtain ⟨-, hit, hdis⟩ := owned_parts h.nodup
  obtain ⟨ht, -, hne⟩ : a.threads = [] ∧ a.fibers ≠ [] ∧ a.idle ≠ [] := h.known
  have hg : H.threadList ∉ H.idleThreadList :: a.idle := threadList_not_mem h.nodup
  obtain ⟨hi, hthreads⟩ := O.replaceInit_ring h.idle hne hg
  have hs : ∀ x ∈ H.schedFiberList :: a.queue ++ H.fiberList :: a.fibers,
      (O.replaceInit H.idleThreadList H.threadList s).SameAt s x := by
    intro x hx
    refine O.replaceInit_same h.idle hne fun hx' => hdis x ?_ hx
    rcases List.mem_cons.1 hx' with rfl | hx'
    · exact List.mem_append_right _ (.head _)
    · exact List.mem_append_left _ hx'
  have hta : (a.after .takeThreads).threads = a.idle := by
    rw [Hands.after, ht, List.nil_append]
  refine h.regroup ?_ rfl ?_ hi ⟨?_, hta ▸ hthreads⟩ trivial
  · simp only [Config.owned, Config.held, Config.shared, Hands.after, Pc.giving,
      List.perm_iff_count, List.count_append, List.count_cons, List.count_nil]
    omega
  · exact h.queue.congr fun x hx => hs x (List.mem_append_left _ hx)
  · exact Links.Ring.congr h.walked fun x hx => hs x (List.mem_append_right _ hx)

theorem Inv.takeFibers (h : Inv H ⟨⟨.takeFibers, s, top⟩, a, log⟩) :
    Inv H ⟨⟨.first, O.replaceInit H.schedFiberList H.fiberList s, top⟩,
      a.after .takeFibers, log'⟩ := by
  obtain ⟨hqf, -, hdis⟩ := owned_parts h.nodup
  obtain ⟨hf, -, hne⟩ : a.fibers = [] ∧ a.threads ≠ [] ∧ a.queue ≠ [] := h.known
  have hg : H.fiberList ∉ H.schedFiberList :: a.queue := fiberList_not_mem h.nodup
  obtain ⟨hq, hfibers⟩ := O.replaceInit_ring h.queue hne hg
  have hs : ∀ x ∈ H.idleThreadList :: a.idle ++ H.threadList :: a.threads,
      (O.replaceInit H.schedFiberList H.fiberList s).SameAt s x := by
    intro x hx
    refine O.replaceInit_same h.queue hne fun hx' => hdis x hx ?_
    rcases List.mem_cons.1 hx' with rfl | hx'
    · exact List.mem_append_right _ (.head _)
    · exact List.mem_append_left _ hx'
  have hfa : (a.after .takeFibers).fibers = a.queue := by
    rw [Hands.after, hf, List.nil_append]
  refine h.regroup ?_ rfl hq ?_ ⟨hfa ▸ hfibers, ?_⟩ trivial
  · simp only [Config.owned, Config.held, Config.shared, Hands.after, Pc.giving,
      List.perm_iff_count, List.count_append, List.count_cons, List.count_nil]
    omega
  · exact h.idle.congr fun x hx => hs x (List.mem_append_left _ hx)
  · exact Links.Ring.congr h.walked fun x hx => hs x (List.mem_append_right _ hx)

theorem Inv.move (h : Inv H c) (hm : c.move O H = some c') : Inv H c' := by
  obtain ⟨⟨pc, s, top⟩, a, log⟩ := c
  have hw : Walked H s a.fibers a.threads pc := h.walked
  have hk : Known a pc := h.known
  cases pc with
  | init =>
    obtain rfl := Option.some.inj hm
    exact h.init
  | loop =>
    obtain rfl := Option.some.inj hm
    have he : O.empty H.fiberList s = a.fibers.isEmpty := O.empty_ring hw
    show Inv H ⟨⟨if O.empty H.fiberList s then .ret else .lock, s, top⟩, a, _⟩
    rw [he]
    split_ifs with hf
    · exact h.goto rfl rfl rfl trivial ⟨List.isEmpty_iff.1 hf, hk⟩
    · exact h.goto rfl rfl rfl hw ⟨hk, fun h0 => hf (List.isEmpty_iff.2 h0)⟩
  | lock =>
    obtain rfl := Option.some.inj hm
    exact h.goto rfl rfl rfl hw hk
  | idleTest =>
    obtain rfl := Option.some.inj hm
    have he : O.empty H.idleThreadList s = a.idle.isEmpty := O.empty_ring h.idle
    show Inv H ⟨⟨if O.empty H.idleThreadList s then .append else .takeThreads, s, top⟩, a, _⟩
    rw [he]
    split_ifs with hi
    · exact h.goto rfl rfl rfl hw ⟨hk.1, hk.2, List.isEmpty_iff.1 hi⟩
    · exact h.goto rfl rfl rfl hw ⟨hk.1, hk.2, fun h0 => hi (List.isEmpty_iff.2 h0)⟩
  | append =>
    obtain rfl := Option.some.inj hm
    exact h.append
  | takeThreads =>
    obtain rfl := Option.some.inj hm
    exact h.takeThreads
  | first =>
    obtain rfl := Option.some.inj hm
    exact h.goto rfl rfl rfl ⟨hw.1.rest, hw.2.rest⟩ trivial
  | walk ix iy =>
    obtain rfl := Option.some.inj hm
    have hf : ix = H.fiberList ↔ a.fibers = [] := hw.1.at_header
    have ht : iy = H.threadList ↔ a.threads = [] := hw.2.at_header
    show Inv H ⟨⟨if ix ≠ H.fiberList ∧ iy ≠ H.threadList then .read ix iy else .after ix iy,
      s, top⟩, a, _⟩
    split_ifs with hx
    · exact h.goto rfl rfl rfl hw ⟨fun h0 => hx.1 (hf.2 h0), fun h0 => hx.2 (ht.2 h0)⟩
    · refine h.goto rfl rfl rfl hw ?_
      rw [not_and_or, not_not, not_not, hf, ht] at hx
      exact hx
  | read ix iy =>
    obtain rfl := Option.some.inj hm
    obtain ⟨hrf, hrt⟩ := hw
    obtain ⟨f, fs, hf⟩ := List.exists_cons_of_ne_nil hk.1
    obtain ⟨w, ths, ht⟩ := List.exists_cons_of_ne_nil hk.2
    rw [hf] at hrf
    rw [ht] at hrt
    obtain rfl := hrf.first
    obtain rfl := hrt.first
    exact h.goto rfl rfl rfl ⟨fs, ths, hf, ht, hrf.step, hrt.step⟩ trivial
  | store ix iy tix tiy =>
    obtain rfl := Option.some.inj hm
    exact h.store
  | signal ix iy tix tiy =>
    obtain rfl := Option.some.inj hm
    exact h.signal
  | after ix iy =>
    simp only [Config.move, call] at hm
    split_ifs at hm with hix hiy
    · obtain rfl := Option.some.inj hm
      exact h.goto rfl rfl rfl trivial ⟨hw.1.at_header.1 hix, hw.2.at_header.1 hiy⟩
    · obtain rfl := Option.some.inj hm
      rw [O.link_eq]
      exact h.closeThreads hix hiy
    · obtain rfl := Option.some.inj hm
      rw [O.link_eq]
      exact h.closeFibers hix
  | relock =>
    obtain rfl := Option.some.inj hm
    exact h.goto rfl rfl rfl hw hk
  | queueTest =>
    obtain rfl := Option.some.inj hm
    have he : O.empty H.schedFiberList s = a.queue.isEmpty := O.empty_ring h.queue
    show Inv H ⟨⟨if O.empty H.schedFiberList s then .putBack else .takeFibers, s, top⟩, a, _⟩
    rw [he]
    split_ifs with hq
    · exact h.goto rfl rfl rfl hw ⟨hk.1, hk.2, List.isEmpty_iff.1 hq⟩
    · exact h.goto rfl rfl rfl hw ⟨hk.1, hk.2, fun h0 => hq (List.isEmpty_iff.2 h0)⟩
  | putBack =>
    obtain rfl := Option.some.inj hm
    exact h.putBack
  | takeFibers =>
    obtain rfl := Option.some.inj hm
    exact h.takeFibers
  | ret => exact nomatch hm

theorem Inv.next (h : Inv H c) (hn : Next O H c c') : Inv H c' := by
  cases hn with
  | call hm => exact h.move hm
  | others ho => exact h.others ho

end Sched.EnqueueList
