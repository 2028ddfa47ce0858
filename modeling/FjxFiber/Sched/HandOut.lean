import FjxFiber.Sched.EnqueueListInv

/-!
# `enqueue_fiber_list` hands out every fiber exactly once

* `Accounted`: what came into the hands of the call against what it gave away, read off its log,
* `Config.size`: a measure that every step of the call decreases, whatever happened in between,
* `Spares`: a step neither reads nor writes the link fields of some nodes.

`hands_out` puts them together for all runs.
-/

set_option autoImplicit false

namespace Sched.EnqueueList

open Lib Links

variable {P V : Type*}

/-! ## Reading the log -/

namespace Event

/-- The fiber that is assigned, the thread, and the `stack_top`. -/
def assigned : Event P V → List (P × P × V)
  | store f th top => [(f, th, top)]
  | _ => []

def takenFibers : Event P V → List P
  | takeFibers fs => fs
  | _ => []

def takenThreads : Event P V → List P
  | takeThreads ths => ths
  | _ => []

def appended : Event P V → List P
  | append fs => fs
  | _ => []

def returned : Event P V → List P
  | putBack ths _ => ths
  | _ => []

/-- Part of an assignment of a fiber to a thread. -/
def assigns : Event P V → Bool
  | store .. | signal .. => true
  | _ => false

/-- An assignment is a store and one signal. -/
def assignment (p : P × P × V) : List (Event P V) :=
  [.store p.1 p.2.1 p.2.2, .signal p.2.1 p.2.2]

end Event

variable {H : Headers P} {c c' c₀ : Config P V} {input : List P}

/-- The signal that is still to come. -/
def State.due (s : State P V) : List (Event P V) :=
  match s.pc with
  | .signal _ iy _ _ => [.signal iy (s.stackTop iy)]
  | _ => []

/-- What the call was given or took, against what it gave away and what it still holds. -/
structure Accounted (input : List P) (c : Config P V) : Prop where
  /-- Every fiber is assigned, appended, or still at hand. -/
  fibers : (input ++ c.log.flatMap Event.takenFibers).Perm
    ((c.log.flatMap Event.assigned).map (·.1) ++ c.log.flatMap Event.appended ++ c.hands.fibers)
  /-- Every thread is given a fiber, put back, or still at hand. -/
  threads : (c.log.flatMap Event.takenThreads).Perm
    ((c.log.flatMap Event.assigned).map (·.2.1) ++ c.log.flatMap Event.returned ++
      c.hands.threads)
  /-- Every store is followed by one signal of its thread. -/
  signals : c.log.filter Event.assigns ++ c.due =
    (c.log.flatMap Event.assigned).flatMap Event.assignment
  /-- Threads are put back at an empty run queue only. -/
  putBack : ∀ ths q, Event.putBack ths q ∈ c.log → q = []

theorem Start.accounted (h : Start H c) : Accounted c.hands.fibers c := by
  have hd : c.due = [] := by rw [State.due, h.pc]
  constructor <;> simp [h.log, h.threads, hd]

/-- Nothing is taken and nothing is given away. -/
theorem Accounted.same (h : Accounted input c) (hl : c'.log = c.log)
    (hf : c'.hands.fibers = c.hands.fibers) (ht : c'.hands.threads = c.hands.threads)
    (hd : c'.due = c.due) : Accounted input c' := by
  obtain ⟨h1, h2, h3, h4⟩ := h
  constructor
  · rw [hl, hf]
    exact h1
  · rw [hl, ht]
    exact h2
  · rw [hl, hd]
    exact h3
  · rw [hl]
    exact h4

variable [DecidableEq P] {O : SpliceOps P}

theorem Accounted.others (h : Accounted input c) (ho : Others H c c') : Accounted input c' := by
  apply h.same ho.log ho.fibers ho.threads
  unfold State.due
  rw [ho.pc]
  cases hpc : c.pc with
  | signal ix iy tix tiy =>
    have hiy : iy ∈ c.held H := by simp [Config.held, hpc, Pc.giving]
    simp only [ho.stackTop iy hiy]
  | _ => simp

/-- One event accounts for the change of what is at hand. -/
theorem Accounted.event (h : Accounted input c) {e : Event P V} (hl : c'.log = c.log ++ [e])
    (hf : (c.hands.fibers ++ e.takenFibers).Perm
      (e.assigned.map (·.1) ++ e.appended ++ c'.hands.fibers))
    (ht : (c.hands.threads ++ e.takenThreads).Perm
      (e.assigned.map (·.2.1) ++ e.returned ++ c'.hands.threads))
    (hs : c.due ++ e.assigned.flatMap Event.assignment = [e].filter Event.assigns ++ c'.due)
    (hp : ∀ ths q, e = .putBack ths q → q = []) : Accounted input c' := by
  obtain ⟨h1, h2, h3, h4⟩ := h
  constructor
  · rw [List.perm_iff_count] at h1 hf ⊢
    intro x
    have := h1 x
    have := hf x
    simp only [hl, List.flatMap_append, List.flatMap_singleton, List.map_append,
      List.count_append] at *
    omega
  · rw [List.perm_iff_count] at h2 ht ⊢
    intro x
    have := h2 x
    have := ht x
    simp only [hl, List.flatMap_append, List.flatMap_singleton, List.map_append,
      List.count_append] at *
    omega
  · rw [hl, List.filter_append, List.append_assoc, ← hs, ← List.append_assoc, h3,
      List.flatMap_append, List.flatMap_append, List.flatMap_singleton]
  · intro ths q hm
    rw [hl, List.mem_append, List.mem_singleton] at hm
    exact hm.elim (h4 ths q) fun he => hp ths q he.symm

theorem Accounted.move (h : Accounted input c) (hi : Inv H c) (hm : c.move O H = some c') :
    Accounted input c' := by
  obtain ⟨⟨pc, s, top⟩, a, log⟩ := c
  have hw : Walked H s a.fibers a.threads pc := hi.walked
  have hk : Known a pc := hi.known
  cases pc with
  | append =>
    obtain rfl := Option.some.inj hm
    refine h.event rfl ?_ ?_ rfl (by simp)
    · exact .refl _
    · exact .of_eq (List.append_nil a.threads)
  | takeThreads =>
    obtain rfl := Option.some.inj hm
    exact h.event rfl (.of_eq (List.append_nil a.fibers)) (.refl _) rfl (by simp)
  | takeFibers =>
    obtain rfl := Option.some.inj hm
    exact h.event rfl (.refl _) (.of_eq (List.append_nil a.threads)) rfl (by simp)
  | putBack =>
    obtain rfl := Option.some.inj hm
    refine h.event rfl ?_ (.refl _) rfl ?_
    · exact .of_eq (List.append_nil a.fibers)
    · intro ths q he
      cases he
      exact hk.2.2
  | store ix iy tix tiy =>
    obtain rfl := Option.some.inj hm
    obtain ⟨fs, ths, hf, ht, -, -⟩ := hw
    have hix : ix ∈ a.fibers := (show a.fibers = ix :: fs from hf) ▸ .head _
    have hiy : iy ∈ a.threads := (show a.threads = iy :: ths from ht) ▸ .head _
    refine h.event rfl ?_ ?_ ?_ (by simp)
    · exact (List.Perm.of_eq (List.append_nil a.fibers)).trans (List.perm_cons_erase hix)
    · exact (List.Perm.of_eq (List.append_nil a.threads)).trans (List.perm_cons_erase hiy)
    · show [Event.store ix iy (top ix), .signal iy (top ix)] =
        [.store ix iy (top ix), .signal iy (Function.update top iy (top ix) iy)]
      rw [Function.update_self]
  | signal ix iy tix tiy =>
    obtain rfl := Option.some.inj hm
    refine h.event rfl ?_ ?_ rfl (by simp)
    · exact .of_eq (List.append_nil a.fibers)
    · exact .of_eq (List.append_nil a.threads)
  | loop | idleTest | walk | queueTest =>
    obtain rfl := Option.some.inj hm
    refine h.same (List.append_nil log) rfl rfl ?_
    simp only [State.due]
    split_ifs <;> rfl
  | init | lock | first | read | relock =>
    obtain rfl := Option.some.inj hm
    exact h.same (List.append_nil log) rfl rfl rfl
  | after ix iy =>
    simp only [Config.move, call] at hm
    split_ifs at hm
    all_goals
      obtain rfl := Option.some.inj hm
      exact h.same (List.append_nil log) rfl rfl rfl
  | ret => simp [Config.move, call] at hm

/-! ## Termination -/

/-- How far the call is from its next visit of a list that it has not taken yet. -/
def Pc.rank : Pc P → Nat
  | .init => 11
  | .first | .signal .. => 10
  | .walk .. => 9
  | .read .. => 8
  | .store .. => 7
  | .after .. => 5
  | .loop => 4
  | .lock | .relock => 3
  | .idleTest | .queueTest => 2
  | .append | .takeThreads | .putBack | .takeFibers => 1
  | .ret => 0

/-- A fiber or thread counts for the steps of handing it over, and twice if it has still to be
taken from a list of the scheduler. -/
def Hands.weight (a : Hands P) : Nat :=
  20 * (a.queue.length + a.idle.length) + 10 * (a.fibers.length + a.threads.length)

def Config.size (c : Config P V) : Nat :=
  if c.pc = .ret then 0 else c.hands.weight + c.pc.rank + 1

theorem size_lt_of (hc : c.pc ≠ .ret) (h : c'.pc ≠ .ret →
    c'.hands.weight + c'.pc.rank < c.hands.weight + c.pc.rank) : c'.size < c.size := by
  unfold Config.size
  rw [if_neg hc]
  split_ifs with hr
  · omega
  · have := h hr
    omega

/-- **Every step of the call makes the rest smaller.** -/
theorem Inv.size_lt (h : Inv H c) (hm : c.move O H = some c') : c'.size < c.size := by
  obtain ⟨⟨pc, s, top⟩, a, log⟩ := c
  have hw : Walked H s a.fibers a.threads pc := h.walked
  have hk : Known a pc := h.known
  cases pc with
  | init | lock | first | read | signal | relock =>
    obtain rfl := Option.some.inj hm
    refine size_lt_of (by simp) fun _ => Nat.add_lt_add_left ?_ a.weight
    simp [Pc.rank]
  | loop | idleTest | walk | queueTest =>
    obtain rfl := Option.some.inj hm
    refine size_lt_of (by simp) fun _ => Nat.add_lt_add_left ?_ a.weight
    show Pc.rank (if _ then _ else _) < _
    split_ifs <;> simp [Pc.rank]
  | after ix iy =>
    simp only [Config.move, call] at hm
    split_ifs at hm
    all_goals
      obtain rfl := Option.some.inj hm
      refine size_lt_of (by simp) fun _ => Nat.add_lt_add_left ?_ a.weight
      simp [Pc.rank]
  | append | putBack =>
    obtain rfl := Option.some.inj hm
    exact size_lt_of (by simp) fun hr => absurd rfl hr
  | store ix iy tix tiy =>
    obtain rfl := Option.some.inj hm
    obtain ⟨fs, ths, hf, ht, -, -⟩ := hw
    refine size_lt_of (by simp) fun _ => ?_
    simp only [Hands.after, Hands.weight, Pc.rank, hf, ht, List.erase_cons_head, List.length_cons]
    omega
  | takeThreads =>
    obtain rfl := Option.some.inj hm
    have := List.length_pos_of_ne_nil hk.2.2
    refine size_lt_of (by simp) fun _ => ?_
    simp only [Hands.after, Hands.weight, Pc.rank, List.length_append, List.length_nil]
    omega
  | takeFibers =>
    obtain rfl := Option.some.inj hm
    have := List.length_pos_of_ne_nil hk.2.2
    refine size_lt_of (by simp) fun _ => ?_
    simp only [Hands.after, Hands.weight, Pc.rank, List.length_append, List.length_nil]
    omega
  | ret => simp [Config.move, call] at hm

/-! ## Footprints -/

/-- The step from `c` to `c'` reads and writes the link fields of the nodes `A` only: with any
other links of the other nodes the call takes the same step, and it leaves those links alone. -/
def Confined (O : SpliceOps P) (H : Headers P) (A : List P) (c c' : Config P V) : Prop :=
  ∀ s : Links P, (∀ x ∈ A, s.SameAt c.links x) →
    ∃ s', call O H { c.toState with links := s } = some { c'.toState with links := s' } ∧
      (∀ x ∈ A, s'.SameAt c'.links x) ∧ ∀ x ∉ A, s'.SameAt s x

theorem confined_of {A : List P} {op : Links P → Links P} (hw : Within A op c.links)
    (hl : c'.links = op c.links)
    (hc : ∀ s : Links P, (∀ x ∈ A, s.SameAt c.links x) →
      call O H { c.toState with links := s } = some { c'.toState with links := op s }) :
    Confined O H A c c' := by
  intro s hs
  refine ⟨op s, hc s hs, ?_, (hw s hs).2⟩
  rw [hl]
  exact (hw s hs).1

theorem Inv.confined (h : Inv H c) (hm : c.move O H = some c') :
    Confined O H (c.owned H) c c' := by
  obtain ⟨hqf, hit, -⟩ := owned_parts h.nodup
  have hgf := fiberList_not_mem h.nodup
  have hgt := threadList_not_mem h.nodup
  have hsf := queue_fibers_subset (H := H) (c := c)
  have hst := idle_threads_subset (H := H) (c := c)
  have hfl : H.fiberList ∈ c.owned H := hsf (by simp)
  have htl : H.threadList ∈ c.owned H := hst (by simp)
  obtain ⟨⟨pc, s, top⟩, a, log⟩ := c
  have hw : Walked H s a.fibers a.threads pc := h.walked
  have hk : Known a pc := h.known
  cases pc with
  | lock | store | signal | relock | walk =>
    obtain rfl := Option.some.inj hm
    exact confined_of (.id _ s) rfl fun _ _ => rfl
  | init =>
    obtain rfl := Option.some.inj hm
    refine confined_of ((O.init_within H.threadList s).mono ?_) rfl fun _ _ => rfl
    exact fun x hx => List.mem_singleton.1 hx ▸ htl
  | loop =>
    obtain rfl := Option.some.inj hm
    refine confined_of (.id _ s) rfl fun s' hs => ?_
    simp only [call, O.empty_within (hs _ hfl)]
  | idleTest =>
    obtain rfl := Option.some.inj hm
    refine confined_of (.id _ s) rfl fun s' hs => ?_
    simp only [call, O.empty_within (hs _ (hst (.head _)))]
  | queueTest =>
    obtain rfl := Option.some.inj hm
    refine confined_of (.id _ s) rfl fun s' hs => ?_
    simp only [call, O.empty_within (hs _ (hsf (.head _)))]
  | first =>
    obtain rfl := Option.some.inj hm
    refine confined_of (.id _ s) rfl fun s' hs => ?_
    simp only [call, (hs _ hfl).1, (hs _ htl).1]
  | read ix iy =>
    obtain rfl := Option.some.inj hm
    refine confined_of (.id _ s) rfl fun s' hs => ?_
    have hix := hs ix (hsf (List.mem_append_right _ hw.1.mem))
    have hiy := hs iy (hst (List.mem_append_right _ hw.2.mem))
    simp only [call, hix.1, hiy.1]
  | after ix iy =>
    have hix := hsf (List.mem_append_right _ hw.1.mem)
    have hiy := hst (List.mem_append_right _ hw.2.mem)
    simp only [Config.move, call] at hm
    split_ifs at hm with h1 h2
    · obtain rfl := Option.some.inj hm
      refine confined_of (.id _ s) rfl fun s' hs => ?_
      simp only [call, if_pos h1, if_pos h2]
    · obtain rfl := Option.some.inj hm
      refine confined_of (((Within.id _ s).link htl hiy).congr fun _ _ => O.link_eq _ _ _) rfl ?_
      intro s' hs
      simp only [call, if_pos h1, if_neg h2]
    · obtain rfl := Option.some.inj hm
      refine confined_of (((Within.id _ s).link hfl hix).congr fun _ _ => O.link_eq _ _ _) rfl ?_
      intro s' hs
      simp only [call, if_neg h1]
  | append =>
    obtain rfl := Option.some.inj hm
    exact confined_of ((O.addListTail_within h.queue hw hk.2.1 hqf).mono hsf) rfl fun _ _ => rfl
  | putBack =>
    obtain rfl := Option.some.inj hm
    exact confined_of ((O.addList_within h.idle hw hk.2.1 hit).mono hst) rfl fun _ _ => rfl
  | takeThreads =>
    obtain rfl := Option.some.inj hm
    refine confined_of ((O.replaceInit_within h.idle hk.2.2 hgt).mono ?_) rfl fun _ _ => rfl
    exact List.cons_subset.2 ⟨htl, fun x hx => hst (List.mem_append_left _ hx)⟩
  | takeFibers =>
    obtain rfl := Option.some.inj hm
    refine confined_of ((O.replaceInit_within h.queue hk.2.2 hgf).mono ?_) rfl fun _ _ => rfl
    exact List.cons_subset.2 ⟨hfl, fun x hx => hsf (List.mem_append_left _ hx)⟩
  | ret => simp [Config.move, call] at hm

/-- The step from `c` to `c'` neither reads nor writes the link fields of the nodes `D`. -/
def Spares (O : SpliceOps P) (H : Headers P) (D : List P) (c c' : Config P V) : Prop :=
  ∀ s : Links P, (∀ x ∉ D, s.SameAt c.links x) →
    ∃ s', call O H { c.toState with links := s } = some { c'.toState with links := s' } ∧
      (∀ x ∉ D, s'.SameAt c'.links x) ∧ ∀ x ∈ D, s'.SameAt s x

theorem Confined.same {A : List P} (h : Confined O H A c c') (hm : c.move O H = some c') {x : P}
    (hx : x ∉ A) : c'.links.SameAt c.links x := by
  obtain ⟨s', hc, -, hout⟩ := h c.links fun x _ => .refl _ x
  obtain ⟨s1, hs1, rfl⟩ := Option.map_eq_some_iff.1 hm
  rw [show call O H { c.toState with links := c.links } = some s1 from hs1] at hc
  have he : s1.links = s' := congrArg State.links (Option.some.inj hc)
  rw [← he] at hout
  exact hout x hx

theorem Confined.spares {A D : List P} (h : Confined O H A c c') (hm : c.move O H = some c')
    (hD : ∀ x ∈ D, x ∉ A) : Spares O H D c c' := by
  intro s hs
  obtain ⟨s', hc, hin, hout⟩ := h s fun x hx => hs x fun hx' => hD x hx' hx
  refine ⟨s', hc, fun x hx => ?_, fun x hx => hout x (hD x hx)⟩
  by_cases hA : x ∈ A
  · exact hin x hA
  · exact (hout x hA).trans ((hs x hx).trans (h.same hm hA).symm)

/-! ## What the others do -/

/-- Others have changed the links, the `stack_top` fields and the two lists of the scheduler. -/
def Config.interfere (H : Headers P) (c : Config P V) (s : Links P) (top : P → V)
    (queue idle : List P) : Config P V :=
  { c with
    links := s
    stackTop := top
    hands := { c.hands with
      queue := queue
      idle := idle
      released := c.hands.released.filter
        (· ∉ H.schedFiberList :: queue ++ H.idleThreadList :: idle) } }

/-- Nodes that the call has no use for, those handed over among them, may be overwritten at any
time. -/
theorem others_overwrite (h : Inv H c) {s : Links P} {top : P → V}
    (hs : ∀ x ∈ c.owned H, s.SameAt c.links x) (ht : ∀ x ∈ c.owned H, top x = c.stackTop x) :
    Others H c (c.interfere H s top c.hands.queue c.hands.idle) where
  pc := rfl
  log := rfl
  fibers := rfl
  threads := rfl
  released := rfl
  links x hx := hs x (List.mem_append_left _ hx)
  stackTop x hx := ht x (List.mem_append_left _ hx)
  queue := h.queue.congr fun x hx =>
    hs x (List.mem_append_right _ (List.mem_append_left _ hx))
  idle := h.idle.congr fun x hx =>
    hs x (List.mem_append_right _ (List.mem_append_right _ hx))
  nodup := h.nodup
  locked _ := ⟨rfl, rfl⟩

/-- Fibers are appended to the run queue or popped from it. -/
theorem others_queue (h : Inv H c) (hl : c.pc.locked = false) {s : Links P} {queue : List P}
    (hr : s.Ring H.schedFiberList queue)
    (hs : ∀ x ∈ c.owned H, x ∉ H.schedFiberList :: c.hands.queue → s.SameAt c.links x)
    (hq : ∀ x ∈ queue, x ∈ c.hands.queue ∨ x ∉ c.owned H) :
    Others H c (c.interfere H s c.stackTop queue c.hands.idle) := by
  have hn := h.nodup
  have hqn := hr.1
  refine ⟨rfl, rfl, rfl, rfl, rfl, fun x hx => ?_, fun _ _ => rfl, hr, ?_, ?_, ?_⟩
  · refine hs x (List.mem_append_left _ hx) fun hx' => ?_
    exact held_disjoint hn (List.mem_append_left _ hx') hx
  · refine h.idle.congr fun x hx => hs x ?_ ?_
    · exact List.mem_append_right _ (List.mem_append_right _ hx)
    · intro hx'
      exact (List.nodup_append.1 (List.nodup_append.1 hn).2.1).2.2 x hx' x hx rfl
  · show (c.held H ++ (H.schedFiberList :: queue ++ H.idleThreadList :: c.hands.idle)).Nodup
    unfold Config.owned Config.shared at hn hq
    generalize c.held H = A at *
    simp only [List.nodup_append, List.mem_append, List.nodup_cons, List.mem_cons] at hn hq hqn ⊢
    grind
  · intro hl'
    rw [hl] at hl'
    exact nomatch hl'

/-- Threads go idle, or idle threads are taken. -/
theorem others_idle (h : Inv H c) (hl : c.pc.locked = false) {s : Links P} {idle : List P}
    (hr : s.Ring H.idleThreadList idle)
    (hs : ∀ x ∈ c.owned H, x ∉ H.idleThreadList :: c.hands.idle → s.SameAt c.links x)
    (hi : ∀ x ∈ idle, x ∈ c.hands.idle ∨ x ∉ c.owned H) :
    Others H c (c.interfere H s c.stackTop c.hands.queue idle) := by
  have hn := h.nodup
  have hin := hr.1
  refine ⟨rfl, rfl, rfl, rfl, rfl, fun x hx => ?_, fun _ _ => rfl, ?_, hr, ?_, ?_⟩
  · refine hs x (List.mem_append_left _ hx) fun hx' => ?_
    exact held_disjoint hn (List.mem_append_right _ hx') hx
  · refine h.queue.congr fun x hx => hs x ?_ ?_
    · exact List.mem_append_right _ (List.mem_append_left _ hx)
    · intro hx'
      exact (List.nodup_append.1 (List.nodup_append.1 hn).2.1).2.2 x hx x hx' rfl
  · show (c.held H ++ (H.schedFiberList :: c.hands.queue ++ H.idleThreadList :: idle)).Nodup
    unfold Config.owned Config.shared at hn hi
    generalize c.held H = A at *
    simp only [List.nodup_append, List.mem_append, List.nodup_cons, List.mem_cons] at hn hi hin ⊢
    grind
  · intro hl'
    rw [hl] at hl'
    exact nomatch hl'

/-! ## All runs -/

theorem move_eq_none : c.move O H = none ↔ c.pc = .ret := by
  obtain ⟨⟨pc, s, top⟩, a, log⟩ := c
  cases pc with
  | ret => exact ⟨fun _ => rfl, fun _ => rfl⟩
  | after ix iy =>
    simp only [Config.move, call]
    split_ifs <;> simp
  | _ => simp [Config.move, call]

theorem reached (h₀ : Start H c₀) (hr : Relation.ReflTransGen (Next O H) c₀ c) :
    Inv H c ∧ Accounted c₀.hands.fibers c := by
  induction hr with
  | refl => exact ⟨h₀.inv, h₀.accounted⟩
  | tail _ hn ih =>
    refine ⟨ih.1.next hn, ?_⟩
    cases hn with
    | call hm => exact ih.2.move ih.1 hm
    | others ho => exact ih.2.others ho

/-- The call takes `n` steps on its own. -/
def Config.moves (O : SpliceOps P) (H : Headers P) : Nat → Config P V → Option (Config P V)
  | 0, c => some c
  | n + 1, c => (c.move O H).bind (Config.moves O H n)

theorem moves_reached {n : Nat} (h : c.moves O H n = some c') :
    Relation.ReflTransGen (Next O H) c c' := by
  induction n generalizing c with
  | zero =>
    obtain rfl := Option.some.inj h
    exact .refl
  | succ n ih =>
    obtain ⟨c1, hm, hn⟩ := Option.bind_eq_some_iff.1 h
    exact .head (.call hm) (ih hn)

/-- **Left alone, the call returns.** -/
theorem Inv.returns (h : Inv H c) : ∃ n c', c.moves O H n = some c' ∧ c'.pc = .ret := by
  induction hk : c.size using Nat.strong_induction_on generalizing c with
  | _ k ih =>
    cases hm : c.move O H with
    | none => exact ⟨0, c, rfl, move_eq_none.1 hm⟩
    | some c1 =>
      obtain ⟨n, c', hn, hret⟩ := ih c1.size (hk ▸ h.size_lt hm) (h.move hm) rfl
      refine ⟨n + 1, c', ?_, hret⟩
      rw [Config.moves, hm]
      exact hn

/-- **In no run is it interrupted for finitely many steps only and does not return.** -/
theorem no_infinite_run (h₀ : Start H c₀) : ¬ ∃ r : Nat → Config P V, r 0 = c₀ ∧
    (∀ n, Next O H (r n) (r (n + 1))) ∧ ∃ N, ∀ n ≥ N, (r n).move O H = some (r (n + 1)) := by
  rintro ⟨r, h0, hn, N, hN⟩
  have hreach : ∀ n, Relation.ReflTransGen (Next O H) c₀ (r n) := by
    intro n
    induction n with
    | zero => exact h0 ▸ .refl
    | succ n ih => exact ih.tail (hn n)
  have hlt : ∀ k, (r (N + k)).size + k ≤ (r N).size := by
    intro k
    induction k with
    | zero => exact le_refl _
    | succ k ih =>
      have := (reached h₀ (hreach (N + k))).1.size_lt (hN (N + k) (Nat.le_add_right N k))
      rw [← Nat.add_assoc N k 1]
      omega
  have := hlt ((r N).size + 1)
  omega

theorem hands_out (O : SpliceOps P) (H : Headers P) {c₀ : Config P V} (h₀ : Start H c₀) :
    (¬ ∃ r : Nat → Config P V, r 0 = c₀ ∧ (∀ n, Next O H (r n) (r (n + 1))) ∧
      ∃ N, ∀ n ≥ N, (r n).move O H = some (r (n + 1))) ∧
    ∀ c, Relation.ReflTransGen (Next O H) c₀ c →
      (∃ n c', c.moves O H n = some c' ∧ c'.pc = .ret) ∧
      (c.pc = .ret → c.hands.fibers = [] ∧ c.hands.threads = []) ∧
      Accounted c₀.hands.fibers c ∧
      c.links.Ring H.schedFiberList c.hands.queue ∧ c.links.Ring H.idleThreadList c.hands.idle ∧
      ∀ c', c.move O H = some c' →
        Confined O H (c.owned H) c c' ∧ Spares O H c.hands.released c c' := by
  refine ⟨no_infinite_run h₀, fun c hr => ?_⟩
  obtain ⟨hi, ha⟩ := reached h₀ hr
  refine ⟨hi.returns, fun hpc => ?_, ha, hi.queue, hi.idle, fun c' hm => ?_⟩
  · have hk := hi.known
    rw [hpc] at hk
    exact hk
  · have hc := hi.confined hm
    exact ⟨hc, hc.spares hm hi.apart⟩

/-- A run over two fibers and one idle thread, which reuses both nodes as soon as it is
signalled. -/
theorem hands_out_run :
    let H : Headers Nat := ⟨0, 1, 2, 3⟩
    let s : Links Nat := ((Links.addTail 2 4 ⟨id, id⟩).addTail 2 5).addTail 1 6
    let c₀ : Config Nat Nat := ⟨⟨.init, s, fun x => 100 + x⟩, ⟨[], [6], [4, 5], [], []⟩, []⟩
    ∃ c, Relation.ReflTransGen (Next (.pointers Nat) H) c₀ c ∧ c.pc = .ret ∧
      c.log = [.takeThreads [6], .store 4 6 104, .signal 6 104, .append [5]] ∧
      Accounted [4, 5] c := by
  intro H s c₀
  have h₀ : Start H c₀ := by
    refine ⟨rfl, ?_, ?_, ?_, by decide, rfl, rfl, rfl⟩
    all_goals
      refine ⟨by decide, ?_⟩
      unfold Links.Linked Links.Joined
      decide
  -- the thread 6 is signalled
  let t : Links Nat := (s.init 3).replaceInit 1 3
  let top : Nat → Nat := Function.update (fun x => 100 + x) 6 104
  let c₁ : Config Nat Nat := ⟨⟨.walk 5 3, t, top⟩, ⟨[], [], [5], [], [4, 6]⟩,
    [.takeThreads [6], .store 4 6 104, .signal 6 104]⟩
  have h₁ : c₀.moves (.pointers Nat) H 10 = some c₁ := rfl
  have hr₁ := moves_reached h₁
  -- its links and those of its fiber are overwritten
  have ho : Others H c₁ (c₁.interfere H (t.link 4 6) top [] []) := by
    refine others_overwrite (reached h₀ hr₁).1 (fun x hx => link_sameAt ?_ ?_) fun x _ => rfl
    · rintro rfl
      exact absurd hx (by decide)
    · rintro rfl
      exact absurd hx (by decide)
  obtain ⟨c, h₂, hpc, hlog⟩ : ∃ c,
      (c₁.interfere H (t.link 4 6) top [] []).moves (.pointers Nat) H 6 = some c ∧
      c.pc = .ret ∧ c.log = [.takeThreads [6], .store 4 6 104, .signal 6 104, .append [5]] :=
    ⟨_, rfl, rfl, rfl⟩
  have hr := (hr₁.tail (.others ho)).trans (moves_reached h₂)
  exact ⟨c, hr, hpc, hlog, ((hands_out _ H h₀).2 c hr).2.2.1⟩

end Sched.EnqueueList
