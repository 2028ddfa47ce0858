import Mathlib.Data.List.Infix
import Mathlib.Data.List.Nodup
import Mathlib.Logic.Function.Basic

/-!
# Queues whose links are set late

A queue of nodes is written down as a pointer to its last node, which a newcomer exchanges with a
pointer to itself, and a link in each node, which its successor sets afterwards. Between the two
the successor is *pending*: its predecessor does not know it yet.

`LinkedQueue F tail next pend q`: tail and links are those of the queue `q`. Nodes are appended
(`push`) and linked (`link`) by anybody; the first node leaves the queue by itself, when it finds a
link to its successor (`pop`), or when the tail is its own (`close`).
-/

set_option autoImplicit false

namespace Lib

/-- How a queue is written down: what the tail is when the queue is empty, what the link of a node
is until it is set, and the pointer to a node. -/
structure LinkFormat (N V : Type*) where
  empty : V
  unset : V
  ref : N → V
  ref_inj : Function.Injective ref
  ref_ne_empty : ∀ x, ref x ≠ empty
  ref_ne_unset : ∀ x, ref x ≠ unset

variable {N V : Type*} {F : LinkFormat N V} {tail : V} {next next' : N → V}
  {pend pend' : N → N → Prop} {q r : List N} {x y : N}

/-- What the tail of a queue is. -/
def LinkFormat.last (F : LinkFormat N V) (q : List N) : V := (q.getLast?.map F.ref).getD F.empty

/-- `tail` and `next` are those of the queue `q`, and `pend y x` says that `y` is about to set the
link of `x`. -/
structure LinkedQueue (F : LinkFormat N V) (tail : V) (next : N → V) (pend : N → N → Prop)
    (q : List N) : Prop where
  tail : tail = F.last q
  nodup : q.Nodup
  link : ∀ x ∈ q, next x = F.unset ∨ ∃ y, next x = F.ref y ∧ [x, y] <:+: q ∧ ∀ z, ¬ pend y z
  pend : ∀ x y, pend y x → [x, y] <:+: q ∧ next x = F.unset

/-! ## Neighbours in a list -/

theorem infix_cons_self (hn : (x :: q).Nodup) (h : [x, y] <:+: x :: q) : ∃ r, q = y :: r := by
  obtain ⟨hx, -⟩ := List.nodup_cons.1 hn
  rcases List.infix_cons_iff.1 h with ⟨r, hr⟩ | hi
  · exact ⟨r, (List.cons.inj hr).2.symm⟩
  · exact absurd (hi.subset (.head _)) hx

theorem infix_cons_of_ne {z : N} (hne : x ≠ z) (h : [x, y] <:+: z :: q) : [x, y] <:+: q := by
  rcases List.infix_cons_iff.1 h with ⟨r, hr⟩ | hi
  · exact absurd (List.cons.inj hr).1 hne
  · exact hi

/-- A node has at most one successor. -/
theorem infix_right_unique {z : N} (hn : q.Nodup) (hy : [x, y] <:+: q) (hz : [x, z] <:+: q) :
    y = z := by
  induction q with
  | nil => exact absurd (hy.subset (.head _)) List.not_mem_nil
  | cons a q ih =>
    by_cases hx : x = a
    · subst hx
      obtain ⟨r, hr⟩ := infix_cons_self hn hy
      obtain ⟨r', hr'⟩ := infix_cons_self hn hz
      rw [hr] at hr'
      exact (List.cons.inj hr').1
    · exact ih (List.nodup_cons.1 hn).2 (infix_cons_of_ne hx hy) (infix_cons_of_ne hx hz)

/-- A node has at most one predecessor. -/
theorem infix_left_unique {z : N} (hn : q.Nodup) (hx : [x, z] <:+: q) (hy : [y, z] <:+: q) :
    x = y := by
  rw [← List.reverse_infix] at hx hy
  exact infix_right_unique (List.nodup_reverse.2 hn) hx hy

/-- The first node has no predecessor. -/
theorem not_infix_head (hn : q.Nodup) (hh : q.head? = some y) : ¬ [x, y] <:+: q := by
  intro h
  obtain ⟨r, rfl⟩ := List.head?_eq_some_iff.1 hh
  obtain ⟨hy, -⟩ := List.nodup_cons.1 hn
  rcases List.infix_cons_iff.1 h with ⟨r', hr⟩ | hi
  · rw [← (List.cons.inj hr).2] at hy
    simp at hy
  · exact hy (hi.subset (.tail _ (.head _)))

/-- The last node has no successor. -/
theorem not_infix_last (hn : q.Nodup) (hl : q.getLast? = some x) : ¬ [x, y] <:+: q := by
  intro h
  obtain ⟨r, rfl⟩ := List.getLast?_eq_some_iff.1 hl
  induction r with
  | nil =>
    have hle := h.length_le
    simp at hle
  | cons a r ih =>
    obtain ⟨ha, hn⟩ := List.nodup_cons.1 hn
    have hne : x ≠ a := by
      intro he
      rw [he] at ha
      simp at ha
    exact ih hn (by simp) (infix_cons_of_ne hne h)

theorem infix_concat_last (h : q.getLast? = some x) : [x, y] <:+: q ++ [y] := by
  obtain ⟨r, hr⟩ := List.getLast?_eq_some_iff.1 h
  rw [hr]
  exact ⟨r, [], by simp⟩

namespace LinkedQueue

/-! ## The tail -/

theorem last_eq_ref : F.last q = F.ref x ↔ q.getLast? = some x := by
  unfold LinkFormat.last
  cases h : q.getLast? with
  | none => simp [Ne.symm (F.ref_ne_empty x)]
  | some z => simp [F.ref_inj.eq_iff]

theorem last_eq_empty : F.last q = F.empty ↔ q = [] := by
  unfold LinkFormat.last
  cases h : q.getLast? with
  | none => simpa using h
  | some z =>
    have hne : q ≠ [] := by
      intro hq
      rw [hq] at h
      cases h
    simp [F.ref_ne_empty z, hne]

theorem nil (hp : ∀ x y, ¬ pend y x) : LinkedQueue F F.empty next pend [] where
  tail := rfl
  nodup := .nil
  link _ hx := absurd hx List.not_mem_nil
  pend x y h := absurd h (hp x y)

variable (h : LinkedQueue F tail next pend q)
include h

/-- Whatever is not written in the queue may change. -/
theorem congr (hn : ∀ x ∈ q, next' x = next x) (hp : ∀ x y, pend' y x ↔ pend y x) :
    LinkedQueue F tail next' pend' q where
  tail := h.tail
  nodup := h.nodup
  link x hx := by
    rw [hn x hx]
    rcases h.link x hx with hu | ⟨y, hy, hi, hpend⟩
    · exact .inl hu
    · exact .inr ⟨y, hy, hi, fun z hz => hpend z ((hp z y).1 hz)⟩
  pend x y hxy := by
    obtain ⟨hi, hu⟩ := h.pend x y ((hp x y).1 hxy)
    exact ⟨hi, (hn x (hi.subset (.head _))).trans hu⟩

/-- A node that is about to be linked to is in the queue. -/
theorem mem_of_pend (hp : pend y x) : x ∈ q := (h.pend x y hp).1.subset (.head _)

/-- A link is to the next node. -/
theorem infix_of_next (hx : x ∈ q) (hn : next x = F.ref y) : [x, y] <:+: q := by
  rcases h.link x hx with hu | ⟨z, hz, hi, -⟩
  · exact absurd (hn.symm.trans hu) (F.ref_ne_unset y)
  · rwa [F.ref_inj (hz.symm.trans hn)] at hi

theorem next_last (hl : q.getLast? = some x) : next x = F.unset := by
  rcases h.link x (List.mem_of_getLast? hl) with hu | ⟨y, -, hi, -⟩
  · exact hu
  · exact absurd hi (not_infix_last h.nodup hl)

/-! ## Steps -/

/-- **A node is appended**: it is about to set the link of the last one. -/
theorem push (hy : y ∉ q) (hu : next y = F.unset)
    (hp : ∀ a b, pend' b a ↔ pend b a ∨ b = y ∧ tail = F.ref a) :
    LinkedQueue F (F.ref y) next pend' (q ++ [y]) where
  tail := by simp [LinkFormat.last]
  nodup := by
    rw [List.nodup_append]
    refine ⟨h.nodup, List.nodup_singleton y, ?_⟩
    intro a ha b hb he
    rw [List.mem_singleton.1 hb] at he
    exact hy (he ▸ ha)
  link x hx := by
    rcases List.mem_append.1 hx with hx | hx
    · rcases h.link x hx with hux | ⟨z, hz, hi, hpend⟩
      · exact .inl hux
      · refine .inr ⟨z, hz, List.infix_append_of_infix_left hi, ?_⟩
        intro w hw
        rcases (hp w z).1 hw with hw | ⟨he, -⟩
        · exact hpend w hw
        · exact hy (he ▸ hi.subset (.tail _ (.head _)))
    · rw [List.mem_singleton.1 hx]
      exact .inl hu
  pend a b hab := by
    rcases (hp a b).1 hab with hab | ⟨rfl, ht⟩
    · obtain ⟨hi, hua⟩ := h.pend a b hab
      exact ⟨List.infix_append_of_infix_left hi, hua⟩
    · have hl : q.getLast? = some a := by
        rw [← last_eq_ref (F := F), ← h.tail, ht]
      exact ⟨infix_concat_last hl, h.next_last hl⟩

/-- **A pending node sets the link of its predecessor.** -/
theorem link_pend (hxy : pend y x) (hx : next' x = F.ref y) (hn : ∀ z ∈ q, z ≠ x → next' z = next z)
    (hp : ∀ a b, pend' b a ↔ pend b a ∧ b ≠ y) : LinkedQueue F tail next' pend' q where
  tail := h.tail
  nodup := h.nodup
  link z hz := by
    by_cases hzx : z = x
    · subst hzx
      exact .inr ⟨y, hx, (h.pend z y hxy).1, fun w hw => ((hp w y).1 hw).2 rfl⟩
    · rw [hn z hz hzx]
      rcases h.link z hz with hu | ⟨w, hw, hi, hpend⟩
      · exact .inl hu
      · exact .inr ⟨w, hw, hi, fun v hv => hpend v ((hp v w).1 hv).1⟩
  pend a b hab := by
    obtain ⟨hab, hby⟩ := (hp a b).1 hab
    obtain ⟨hi, hu⟩ := h.pend a b hab
    have hax : a ≠ x := by
      intro he
      subst he
      exact hby (infix_right_unique h.nodup hi (h.pend a y hxy).1)
    exact ⟨hi, (hn a (hi.subset (.head _)) hax).trans hu⟩

omit h in
/-- What the first node finds as its link: none, or its successor, which is not pending. -/
theorem next_head (h : LinkedQueue F tail next pend (x :: r)) (hne : next x ≠ F.unset) :
    ∃ y r', r = y :: r' ∧ next x = F.ref y ∧ ∀ z, ¬ pend y z := by
  rcases h.link x (.head _) with hu | ⟨y, hy, hi, hpend⟩
  · exact absurd hu hne
  · obtain ⟨r', hr⟩ := infix_cons_self h.nodup hi
    exact ⟨y, r', hr, hy, hpend⟩

omit h in
/-- **The first node leaves**, when its link is set. -/
theorem pop (h : LinkedQueue F tail next pend (x :: r)) (hne : next x ≠ F.unset) :
    LinkedQueue F tail next pend r := by
  obtain ⟨y, r', rfl, hy, -⟩ := h.next_head hne
  obtain ⟨hx, hn⟩ := List.nodup_cons.1 h.nodup
  refine ⟨?_, hn, ?_, ?_⟩
  · rw [h.tail]
    simp [LinkFormat.last, List.getLast?_cons_cons]
  · intro z hz
    have hzx : z ≠ x := fun he => hx (he ▸ hz)
    rcases h.link z (.tail _ hz) with hu | ⟨w, hw, hi, hpend⟩
    · exact .inl hu
    · exact .inr ⟨w, hw, infix_cons_of_ne hzx hi, hpend⟩
  · intro a b hab
    obtain ⟨hi, hu⟩ := h.pend a b hab
    have hax : a ≠ x := fun he => hne (he ▸ hu)
    exact ⟨infix_cons_of_ne hax hi, hu⟩

omit h in
theorem eq_nil_of_tail (h : LinkedQueue F tail next pend (x :: r)) (ht : tail = F.ref x) :
    r = [] := by
  rw [h.tail, last_eq_ref] at ht
  cases r with
  | nil => rfl
  | cons y r => exact absurd ⟨[], r, rfl⟩ (not_infix_last h.nodup ht)

omit h in
/-- **The only node leaves**: nobody follows, and the queue is empty again. -/
theorem close (h : LinkedQueue F tail next pend [x]) : LinkedQueue F F.empty next pend [] := by
  apply nil
  intro a b hab
  have hle := (h.pend a b hab).1.length_le
  simp at hle

end LinkedQueue

end Lib
