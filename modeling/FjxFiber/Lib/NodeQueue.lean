import FjxFiber.Lib.LinkedQueue
import FjxFiber.Lib.StackNodes

/-!
# Queues of nodes on the stacks of callers

A `Layout` says where the programs of `StackNodes` keep a `LinkedQueue`: the tail in the lock, the
links in the nodes. A call enters the queue when it exchanges the tail, sets the link of its
predecessor unless there is none, and leaves when it is at the head, with its successor or as the
last one.

`Queued M L s q`: in the state `s` the queue is `q`, and it consists of calls that are under way.
There is one lemma for each thing an access can do to the queue: nothing (`stay`), `exchange`,
`setLink` and `leave`.
-/

set_option autoImplicit false

namespace Lib.StackNodes

variable {ι A N P : Type*}

/-- Where a program keeps its queue. -/
structure Layout (ι A N P : Type*) where
  /-- The tail of the queue, in the lock. -/
  tail : N → Ptr ι A
  /-- The link of a node to the one behind it, and what it is until it is set. -/
  link : N → Ptr ι A
  unset : Ptr ι A
  /-- The call is in the queue. -/
  queued : P → Option (Ref ι A)
  /-- The call is about to set the link of the node that the pointer points to. -/
  links : P → Option (Ptr ι A)
  ref_ne_unset : ∀ r, Ptr.node r ≠ unset

namespace Layout

variable (L : Layout ι A N P)

def format : LinkFormat (Ref ι A) (Ptr ι A) where
  empty := .null
  unset := L.unset
  ref := .node
  ref_inj _ _ h := Ptr.node.inj h
  ref_ne_empty _ h := by cases h
  ref_ne_unset := L.ref_ne_unset

def next (s : State ι A N P) (r : Ref ι A) : Ptr ι A := L.link (s.mem r.addr)

theorem next_eq {s s' : State ι A N P} (hmem : s'.mem = s.mem) (r : Ref ι A) :
    L.next s' r = L.next s r := by
  unfold next
  rw [hmem]

/-- `y` is about to store its address in the node of `x`. -/
def Pend (s : State ι A N P) (y x : Ref ι A) : Prop :=
  L.queued (s.pc y.thread) = some y ∧ L.links (s.pc y.thread) = some (.node x)

/-- A call in the queue has `y` as its link. -/
def Known (s : State ι A N P) (y : Ref ι A) : Prop :=
  ∃ x, L.queued (s.pc x.thread) = some x ∧ L.next s x = .node y

end Layout

/-- The queue is `q`. -/
structure Queued (M : Program ι A N P) (L : Layout ι A N P) (s : State ι A N P)
    (q : List (Ref ι A)) : Prop where
  live : Live M s
  node : ∀ p r, L.queued p = some r → M.node p = some r
  queue : LinkedQueue L.format (L.tail s.lock) (L.next s) (L.Pend s) q
  mem : ∀ r, r ∈ q ↔ L.queued (s.pc r.thread) = some r

section
variable {M : Program ι A N P} {L : Layout ι A N P} {s s' : State ι A N P} {q r : List (Ref ι A)}
  {mm x y : Ref ι A} {t : ι} {p : P}

/-! ## A thread goes on -/

section
variable [DecidableEq ι] {Active Active' K K' : P → Prop}

/-- At most one thread is active, after a step of the thread `t`. -/
theorem unique_goto (h : ∀ u v, Active (s.pc u) → Active (s.pc v) → u = v)
    (hpc : s'.pc = Function.update s.pc t p)
    (hother : ∀ u, u ≠ t → Active' (s.pc u) → Active (s.pc u))
    (hself : Active' p → Active (s.pc t) ∨ ∀ u, u ≠ t → ¬ Active (s.pc u)) (u v : ι)
    (hu : Active' (s'.pc u)) (hv : Active' (s'.pc v)) : u = v := by
  rw [hpc] at hu hv
  by_cases hut : u = t <;> by_cases hvt : v = t
  · rw [hut, hvt]
  · rw [hut, Function.update_self] at hu
    rw [Function.update_of_ne hvt] at hv
    rcases hself hu with ha | ha
    · rw [hut]
      exact h t v ha (hother v hvt hv)
    · exact absurd (hother v hvt hv) (ha v hvt)
  · rw [hvt, Function.update_self] at hv
    rw [Function.update_of_ne hut] at hu
    rcases hself hv with ha | ha
    · rw [hvt]
      exact h u t (hother u hut hu) ha
    · exact absurd (hother u hut hu) (ha u hut)
  · rw [Function.update_of_ne hut] at hu
    rw [Function.update_of_ne hvt] at hv
    exact h u v (hother u hut hu) (hother v hvt hv)

/-- The active thread `t` has passed its turn to `v`. -/
theorem unique_handover {v : ι} (h : ∀ u v, Active (s.pc u) → Active (s.pc v) → u = v)
    (hpc : s'.pc = Function.update s.pc t p) (ht : Active (s.pc t)) (hself : ¬ Active' p)
    (hother : ∀ u, u ≠ t → u ≠ v → Active' (s.pc u) → Active (s.pc u)) (u u' : ι)
    (hu : Active' (s'.pc u)) (hu' : Active' (s'.pc u')) : u = u' := by
  have hv : ∀ u, Active' (s'.pc u) → u = v := by
    intro u hu
    rw [hpc] at hu
    by_cases hut : u = t
    · rw [hut, Function.update_self] at hu
      exact absurd hu hself
    · rw [Function.update_of_ne hut] at hu
      by_contra huv
      exact hut (h u t (hother u hut huv hu) ht)
  rw [hv u hu, hv u' hu']

/-- What is known of every thread, after a step of the thread `t`. -/
theorem known_goto (h : ∀ u, K (s.pc u)) (hpc : s'.pc = Function.update s.pc t p) (hself : K' p)
    (hother : ∀ u, u ≠ t → K (s.pc u) → K' (s.pc u)) (u : ι) : K' (s'.pc u) := by
  rw [hpc]
  by_cases hu : u = t
  · rw [hu, Function.update_self]
    exact hself
  · rw [Function.update_of_ne hu]
    exact hother u hu (h u)

theorem same_goto {X : Type*} {f : P → X} (hpc : s'.pc = Function.update s.pc t p)
    (hp : f p = f (s.pc t)) (u : ι) : f (s'.pc u) = f (s.pc u) := by
  rw [hpc]
  by_cases hu : u = t
  · rw [hu, Function.update_self, hp]
  · rw [Function.update_of_ne hu]

end

/-! ## The calls in the queue -/

namespace Queued

theorem start (hM : M.Lawful) (hnode : ∀ p r, L.queued p = some r → M.node p = some r) {lock : N}
    (mem : A → N) (ht : L.tail lock = .null) : Queued M L (M.start lock mem) [] := by
  have hout : L.queued M.out = none := by
    cases hq : L.queued M.out with
    | none => rfl
    | some r =>
      have hr := hnode _ _ hq
      rw [hM.out] at hr
      cases hr
  refine ⟨.start hM lock mem, hnode, ?_, ?_⟩
  · rw [show L.tail (M.start lock mem).lock = L.format.empty from ht]
    apply LinkedQueue.nil
    intro x y hp
    have hq : L.queued M.out = some y := hp.1
    rw [hout] at hq
    cases hq
  · intro r
    rw [show L.queued ((M.start lock mem).pc r.thread) = none from hout]
    simp

variable (h : Queued M L s q)
include h

theorem running (hr : x ∈ q) : M.Running s x := h.node _ _ ((h.mem x).1 hr)

theorem thread_eq (hq : L.queued (s.pc t) = some mm) : mm.thread = t :=
  (h.live.own t mm (h.node _ _ hq)).1

theorem thread_ne (ht : L.queued (s.pc t) = none) (hx : x ∈ q) : x.thread ≠ t := by
  intro he
  have hq := (h.mem x).1 hx
  rw [he, ht] at hq
  cases hq

/-- The node of a call that is not in the queue. -/
theorem not_mem_of_node (hnode : M.node (s.pc t) = some mm) (ht : L.queued (s.pc t) = none) :
    mm ∉ q := fun hmm => h.thread_ne ht hmm (h.live.own t mm hnode).1

/-- A call that is about to be linked to is in the queue. -/
theorem mem_of_links (hq : L.queued (s.pc t) = some mm) (hl : L.links (s.pc t) = some (.node x)) :
    x ∈ q := by
  apply h.queue.mem_of_pend (y := mm)
  unfold Layout.Pend
  rw [h.thread_eq hq]
  exact ⟨hq, hl⟩

/-- Whoever is in the queue with the node `mm` is the thread of `mm`. -/
theorem eq_of_queued {u : ι} (ht : L.queued (s.pc t) = some mm) (hu : L.queued (s.pc u) = some mm) :
    u = t := (h.thread_eq hu).symm.trans (h.thread_eq ht)

/-- The first call has nobody's link, and is not about to set one. -/
theorem head_unknown (hy : q.head? = some y) : ¬ L.Known s y := by
  rintro ⟨x, hx, hn⟩
  exact not_infix_head h.queue.nodup hy (h.queue.infix_of_next ((h.mem x).2 hx) hn)

theorem head_not_links (hy : q.head? = some y) : L.links (s.pc y.thread) ≠ some (.node x) := by
  intro hl
  have hq := (h.mem y).1 (List.mem_of_head? hy)
  exact not_infix_head h.queue.nodup hy (h.queue.pend x y ⟨hq, hl⟩).1

omit h in
/-- The second call has the link of the first one, or is about to set it. -/
theorem known_second (h : Queued M L s (x :: y :: r)) (hk : L.Known s y) :
    L.next s x = .node y := by
  obtain ⟨z, hz, hn⟩ := hk
  have hi := h.queue.infix_of_next ((h.mem z).2 hz) hn
  obtain rfl := infix_left_unique h.queue.nodup hi ⟨[], r, rfl⟩
  exact hn

omit h in
theorem links_second {z : Ref ι A} (h : Queued M L s (x :: y :: r))
    (hl : L.links (s.pc y.thread) = some (.node z)) : z = x := by
  have hi := (h.queue.pend z y ⟨(h.mem y).1 (by simp), hl⟩).1
  exact infix_left_unique h.queue.nodup hi ⟨[], r, rfl⟩

omit h in
theorem second_ne (h : Queued M L s (x :: y :: r)) : (x :: y :: r).head? ≠ some y := by
  intro he
  have hn := h.queue.nodup
  rw [Option.some.inj he] at hn
  simp at hn

/-- A call whose link is set does not wait for one. -/
theorem unset_of_links (hq : L.queued (s.pc t) = some y) (hl : L.links (s.pc t) = some (.node x)) :
    L.next s x = L.unset := by
  have hthread := h.thread_eq hq
  exact (h.queue.pend x y ⟨by rw [hthread]; exact hq, by rw [hthread]; exact hl⟩).2

/-- The last call has no link. -/
theorem unset_of_tail (ht : L.tail s.lock = .node x) : L.next s x = L.unset :=
  h.queue.next_last (LinkedQueue.last_eq_ref.1 (h.queue.tail.symm.trans ht))

theorem tail_empty : L.tail s.lock = .null ↔ q = [] := by
  rw [h.queue.tail]
  exact LinkedQueue.last_eq_empty

theorem tail_node (hne : L.tail s.lock ≠ .null) : ∃ x, L.tail s.lock = .node x := by
  cases hl : q.getLast? with
  | none =>
    rw [List.getLast?_eq_none_iff] at hl
    exact absurd (h.tail_empty.2 hl) hne
  | some x => exact ⟨x, h.queue.tail.trans (LinkedQueue.last_eq_ref.2 hl)⟩

/-- A tail that looks like the node of a call in the queue is that node: no other call has a node
at its address. -/
theorem tail_eq [DecidableEq A] (hmm : mm ∈ q) (hsame : (L.tail s.lock).same (.node mm) = true) :
    L.tail s.lock = .node mm := by
  have ht := h.queue.tail
  cases hl : q.getLast? with
  | none =>
    rw [List.getLast?_eq_none_iff] at hl
    rw [hl] at hmm
    cases hmm
  | some b =>
    rw [LinkedQueue.last_eq_ref.2 hl] at ht
    rw [ht] at hsame ⊢
    have ha : b.addr = mm.addr := by simpa [Layout.format, Ptr.same] using hsame
    rw [h.live.eq_of_addr (h.running (List.mem_of_getLast? hl)) (h.running hmm) ha]
    rfl

omit h in
/-- What the head of the queue finds as its link: none, or its successor, which has set it. -/
theorem successor (h : Queued M L s (mm :: r)) (hne : L.next s mm ≠ L.unset) :
    ∃ y r', r = y :: r' ∧ L.next s mm = .node y ∧ y ≠ mm ∧ L.queued (s.pc y.thread) = some y ∧
      ∀ x, L.links (s.pc y.thread) ≠ some (.node x) := by
  obtain ⟨y, r', rfl, hy, hpend⟩ := h.queue.next_head hne
  have hq : L.queued (s.pc y.thread) = some y := (h.mem y).1 (by simp)
  refine ⟨y, r', rfl, hy, ?_, hq, fun x hx => hpend x ⟨hq, hx⟩⟩
  intro he
  have hn := h.queue.nodup
  rw [he] at hn
  simp at hn

/-! ## What an access does to the queue -/

variable [DecidableEq ι]

omit h in
theorem pend_goto (hpc : s'.pc = Function.update s.pc t p) (hq : L.queued p = L.queued (s.pc t))
    (hl : L.links p = L.links (s.pc t)) (x y : Ref ι A) : L.Pend s' y x ↔ L.Pend s y x := by
  unfold Layout.Pend
  rw [same_goto hpc hq, same_goto hpc hl]

/-- Nothing. -/
theorem stay (hlive : Live M s') (hpc : s'.pc = Function.update s.pc t p)
    (htail : L.tail s'.lock = L.tail s.lock) (hnext : ∀ x ∈ q, L.next s' x = L.next s x)
    (hq : L.queued p = L.queued (s.pc t)) (hl : L.links p = L.links (s.pc t)) :
    Queued M L s' q := by
  refine ⟨hlive, h.node, ?_, ?_⟩
  · rw [htail]
    exact h.queue.congr hnext (pend_goto hpc hq hl)
  · intro x
    rw [same_goto hpc hq]
    exact h.mem x

/-- **A call exchanges the tail.** -/
theorem exchange (hlive : Live M s') (hpc : s'.pc = Function.update s.pc t p)
    (ht : M.node (s.pc t) = some mm) (hq0 : L.queued (s.pc t) = none) (hq : L.queued p = some mm)
    (hl : ∀ x, L.links p = some (.node x) ↔ L.tail s.lock = .node x)
    (htail : L.tail s'.lock = .node mm) (hnext : ∀ x, L.next s' x = L.next s x)
    (hunset : L.next s mm = L.unset) : Queued M L s' (q ++ [mm]) := by
  have hthread : mm.thread = t := (h.live.own t mm ht).1
  have hmm : mm ∉ q := h.not_mem_of_node ht hq0
  have hne : ∀ x : Ref ι A, x.thread ≠ t → x ≠ mm := by
    intro x hx he
    rw [he] at hx
    exact hx hthread
  refine ⟨hlive, h.node, ?_, ?_⟩
  · have hpush : LinkedQueue L.format (.node mm) (L.next s) (L.Pend s') (q ++ [mm]) := by
      apply h.queue.push hmm hunset
      intro a b
      unfold Layout.Pend
      rw [hpc]
      by_cases hb : b.thread = t
      · rw [hb, Function.update_self, hq0, hq, hl]
        simp [Layout.format, eq_comm]
      · rw [Function.update_of_ne hb, or_iff_left (fun he => hne b hb he.1)]
    rw [htail]
    exact hpush.congr (fun x _ => hnext x) fun _ _ => Iff.rfl
  · intro x
    rw [hpc, List.mem_append, List.mem_singleton, h.mem]
    by_cases hx : x.thread = t
    · rw [hx, Function.update_self, hq0, hq]
      simp [eq_comm]
    · rw [Function.update_of_ne hx, or_iff_left (hne x hx)]

/-- **A call sets the link of its predecessor.** -/
theorem setLink (hlive : Live M s') (hpc : s'.pc = Function.update s.pc t p)
    (hq0 : L.queued (s.pc t) = some mm) (hl0 : L.links (s.pc t) = some (.node x))
    (hq : L.queued p = some mm) (hl : L.links p = none) (htail : L.tail s'.lock = L.tail s.lock)
    (hset : L.next s' x = .node mm) (hnext : ∀ z ∈ q, z ≠ x → L.next s' z = L.next s z) :
    Queued M L s' q := by
  have hthread := h.thread_eq hq0
  have hpend : L.Pend s mm x := by
    unfold Layout.Pend
    rw [hthread]
    exact ⟨hq0, hl0⟩
  refine ⟨hlive, h.node, ?_, ?_⟩
  · rw [htail]
    apply h.queue.link_pend hpend hset hnext
    intro a b
    unfold Layout.Pend
    rw [hpc]
    by_cases hb : b.thread = t
    · rw [hb, Function.update_self, hl, hq0]
      refine iff_of_false (by simp) ?_
      intro he
      exact he.2 (Option.some.inj he.1.1).symm
    · have hne : b ≠ mm := by
        intro he
        rw [he] at hb
        exact hb hthread
      rw [Function.update_of_ne hb, and_iff_left hne]
  · intro z
    rw [same_goto hpc (hq.trans hq0.symm)]
    exact h.mem z

omit h in
/-- **The call at the head leaves.** -/
theorem leave (h : Queued M L s (mm :: r)) (hlive : Live M s')
    (hpc : s'.pc = Function.update s.pc t p) (hq0 : L.queued (s.pc t) = some mm)
    (hl0 : L.links (s.pc t) = none) (hq : L.queued p = none) (hl : L.links p = none)
    (hnext : ∀ x, L.next s' x = L.next s x)
    (hqueue : LinkedQueue L.format (L.tail s'.lock) (L.next s) (L.Pend s) r) :
    Queued M L s' r := by
  have hthread := h.thread_eq hq0
  obtain ⟨hmm, -⟩ := List.nodup_cons.1 h.queue.nodup
  refine ⟨hlive, h.node, hqueue.congr (fun x _ => hnext x) ?_, ?_⟩
  · intro x y
    unfold Layout.Pend
    rw [hpc]
    by_cases hy : y.thread = t
    · rw [hy, Function.update_self, hl, hl0]
      simp
    · rw [Function.update_of_ne hy]
  · intro x
    rw [hpc]
    by_cases hx : x.thread = t
    · rw [hx, Function.update_self, hq]
      refine iff_of_false ?_ (by simp)
      intro hin
      have hqx := (h.mem x).1 (.tail _ hin)
      rw [hx, hq0] at hqx
      rw [← Option.some.inj hqx] at hin
      exact hmm hin
    · have hne : x ≠ mm := by
        intro he
        rw [he] at hx
        exact hx hthread
      rw [Function.update_of_ne hx, ← h.mem x]
      simp [hne]

/-- Other code uses its stack. -/
theorem other [DecidableEq A] (hM : M.Lawful) {a : A} {n : N} (ha : M.Free s a) :
    Queued M L { s with mem := Function.update s.mem a n } q := by
  refine ⟨h.live.step hM (.other a n ha), h.node, ?_, h.mem⟩
  refine h.queue.congr ?_ fun _ _ => Iff.rfl
  intro x hx
  exact congrArg L.link (Function.update_of_ne (ha x.thread x (h.running hx)) _ _)

end Queued

end

end Lib.StackNodes
