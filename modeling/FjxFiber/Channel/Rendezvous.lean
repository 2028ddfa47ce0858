import FjxFiber.Channel.Invariant

/-!
# The rendezvous

The pairs of a channel are a matching of sends and receives in the order in which both took the
lock, and the calls that end with `CHANNEL_SUCCESS` are the paired ones (`Reached.matching`). Each
pair is transferred once, by the call that popped the other (`Transfers`). What is transferred is
the item as long as the channel is not freed between the pop and the copy: both implementations
read `ch->item_size` after they released the lock, so that destroy, which may take the lock then,
frees the channel under their hands. `channel_rendezvous` is about the runs in which it does not,
`channel_rendezvous_freed` is one in which it does.
-/

set_option autoImplicit false

namespace Channel

open Lib

variable {ι : Type*}

namespace Copy

/-- The two calls of a transfer. -/
def ends (k : Copy ι) : ι × ι := (k.sender, k.receiver)

/-- The receiver's buffer holds the bytes of the sender's; no other byte has changed. -/
def Exact (c : Calls ι) (k : Copy ι) : Prop :=
  (∀ n < c.itemSize, k.after (c.data k.receiver + n) = k.before (c.data k.sender + n)) ∧
    ∀ a, (a < c.data k.receiver ∨ c.data k.receiver + c.itemSize ≤ a) → k.after a = k.before a

end Copy

/-- The points of a call at which it is in its section, has to copy, or has to free the channel. -/
def Pc.stage : Pc ι → Option (Pc ι)
  | .inside => some .inside
  | .popped j => some (.popped j)
  | .freeing items => some (.freeing items)
  | _ => none

variable [DecidableEq ι]

/-- The state after destroy has freed the channel. -/
def State.free (s : State ι) (i : ι) (items : List ι) : State ι :=
  { s.goto i (.marking items []) with freed := true }

/-- The steps in which destroy frees the channel only when no call has still to read
`ch->item_size` for a peer it has popped. -/
def Guarded (c : Calls ι) (s s' : State ι) : Prop :=
  Step c s s' ∧ (s.freed = false → s'.freed = true → ∀ i, (s.pc i).transferring = false)

/-- The states reached by such steps. -/
abbrev GuardedReached (c : Calls ι) : State ι → Prop :=
  Reachable (fun s => ∃ mem, s = .start c mem) (Guarded c)

variable {c : Calls ι} {s s' : State ι} {i j g k : ι}

/-! ## Steps, as far as the transfers are concerned -/

theorem stage_goto {p : Pc ι} (h : (s.pc i).stage = none) (hp : p.stage = none) (k : ι) :
    ((s.goto i p).pc k).stage = (s.pc k).stage := by
  by_cases hk : k = i
  · simp [State.goto, hk, h, hp]
  · simp [State.goto, hk]

theorem stage_goto₂ {p q : Pc ι} (hij : j ≠ i) (hi : (s.pc i).stage = none)
    (hj : (s.pc j).stage = none) (hp : p.stage = none) (hq : q.stage = none) (k : ι) :
    (((s.goto j q).goto i p).pc k).stage = (s.pc k).stage := by
  rw [stage_goto _ hp, stage_goto hj hq]
  rwa [Inv.goto_pc, if_neg (Ne.symm hij)]

/-- **What a step does to pairs, transfers and the freeing of the channel.** -/
theorem Step.stages (h : Inv c s) (hs : Step c s s') :
    (s'.pairs = s.pairs ∧ s'.copies = s.copies ∧ s'.closing = s.closing ∧ s'.freed = s.freed ∧
      (s.freed = false → s'.ch.itemSize = s.ch.itemSize) ∧
      ∀ k, (s'.pc k).stage = (s.pc k).stage) ∨
    (∃ i, s.pc i = .want ∧ s.lock = none ∧ s.closing = false ∧ s' = { s.goto i .inside with
      lock := some i, acqs := s.acqs ++ [i], closing := c.kind i = .destroy }) ∨
    (∃ i, s.pc i = .inside ∧ s' = s.after c i) ∨
    (∃ i j, s.pc i = .popped j ∧ s' = s.copy c i j) ∨
    (∃ i items, s.pc i = .freeing items ∧ s' = s.free i items) := by
  cases hs with
  | call i hpc =>
    refine .inl ⟨rfl, rfl, rfl, rfl, fun _ => rfl, stage_goto (by rw [hpc]; rfl) ?_⟩
    cases c.kind i <;> rfl
  | test i hpc =>
    refine .inl ⟨rfl, rfl, rfl, rfl, fun _ => rfl, stage_goto (by rw [hpc]; rfl) ?_⟩
    cases s.ch.closed <;> cases c.kind i <;> rfl
  | acquire i hpc hlock hopen => exact .inr (.inl ⟨i, hpc, hlock, hopen, rfl⟩)
  | impl i hpc => exact .inr (.inr (.inl ⟨i, hpc, rfl⟩))
  | copy i j hpc => exact .inr (.inr (.inr (.inl ⟨i, j, hpc, rfl⟩)))
  | free i items hpc => exact .inr (.inr (.inr (.inr ⟨i, items, hpc, rfl⟩)))
  | publish i hpc =>
    exact .inl ⟨rfl, rfl, rfl, rfl, fun _ => rfl, stage_goto (by rw [hpc]; rfl) rfl⟩
  | mark i j hpc =>
    exact .inl ⟨rfl, rfl, rfl, rfl, fun _ => rfl, stage_goto (by rw [hpc]; rfl) rfl⟩
  | switch i j hpc =>
    have hj := h.waiting_of_held (g := j) (i := i) (by simp [hpc])
    have hne : j ≠ i := fun he => by simp [he, hpc] at hj
    exact .inl ⟨rfl, rfl, rfl, rfl, fun _ => rfl, stage_goto₂ hne (by rw [hpc]; rfl)
      (by rw [hj]; rfl) rfl rfl⟩
  | enqueue j i hpc =>
    have hf := h.fits j
    simp only [Fits, hpc] at hf
    have hne : i ≠ j := fun he => by simp [he, hpc] at hf
    exact .inl ⟨rfl, rfl, rfl, rfl, fun _ => rfl, stage_goto₂ hne (by rw [hpc]; rfl)
      (by rw [hf.1]; rfl) rfl rfl⟩
  | ready i hpc =>
    exact .inl ⟨rfl, rfl, rfl, rfl, fun _ => rfl, stage_goto (by rw [hpc]; rfl) rfl⟩
  | ret i hpc =>
    exact .inl ⟨rfl, rfl, rfl, rfl, fun _ => rfl, stage_goto (by rw [hpc]; rfl) rfl⟩
  | setState i g todo items hpc =>
    exact .inl ⟨rfl, rfl, rfl, rfl, fun _ => rfl, stage_goto (by rw [hpc]; rfl) rfl⟩
  | enqueueList i items hpc =>
    exact .inl ⟨rfl, rfl, rfl, rfl, fun _ => rfl, stage_goto (by rw [hpc]; rfl) rfl⟩
  | wake i g items hpc =>
    have hg := h.waiting_of_held (g := g) (i := i) (by simp [hpc])
    have hne : g ≠ i := fun he => by simp [he, hpc] at hg
    exact .inl ⟨rfl, rfl, rfl, rfl, fun _ => rfl, stage_goto₂ hne (by rw [hpc]; rfl)
      (by rw [hg]; rfl) rfl rfl⟩
  | woken i hpc =>
    exact .inl ⟨rfl, rfl, rfl, rfl, fun _ => rfl, stage_goto (by rw [hpc]; rfl) rfl⟩
  | user mem => exact .inl ⟨rfl, rfl, rfl, rfl, fun _ => rfl, fun _ => rfl⟩
  | reuse n hfreed =>
    exact .inl ⟨rfl, rfl, rfl, rfl, fun hf => by simp [hfreed] at hf, fun _ => rfl⟩

omit [DecidableEq ι] in
theorem stage_inside (h : (s'.pc k).stage = (s.pc k).stage) :
    s'.pc k = .inside ↔ s.pc k = .inside := by
  cases hs : s.pc k <;> cases hs' : s'.pc k <;> simp_all [Pc.stage]

omit [DecidableEq ι] in
theorem stage_popped (h : (s'.pc k).stage = (s.pc k).stage) (j : ι) :
    s'.pc k = .popped j ↔ s.pc k = .popped j := by
  cases hs : s.pc k <;> cases hs' : s'.pc k <;> simp_all [Pc.stage]

omit [DecidableEq ι] in
theorem stage_freeing (h : (s'.pc k).stage = (s.pc k).stage) (items : List ι) :
    s'.pc k = .freeing items ↔ s.pc k = .freeing items := by
  cases hs : s.pc k <;> cases hs' : s'.pc k <;> simp_all [Pc.stage]

/-- **A critical section, as far as the transfers are concerned**: a call that pops a peer is paired
with it. -/
theorem State.after_stage (c : Calls ι) (s : State ι) (i : ι) :
    ∃ p, (s.after c i).pc = Function.update s.pc i p ∧ p ≠ .inside ∧
      (∀ items, p = .freeing items → c.kind i = .destroy) ∧
      (s.after c i).copies = s.copies ∧ (s.after c i).closing = s.closing ∧
      (s.after c i).freed = s.freed ∧ (s.after c i).ch.itemSize = s.ch.itemSize ∧
      ((∃ j, p = .popped j ∧ (s.after c i).pairs = s.pairs ++ [pairOf c i j]) ∨
        (∀ j, p ≠ .popped j) ∧ (s.after c i).pairs = s.pairs) := by
  rcases s.after_cases c i with ⟨-, -, he⟩ | ⟨-, -, he⟩ | ⟨-, -, -, he⟩ | ⟨-, -, -, he⟩ |
    ⟨j, rest, hk, -, -, he⟩ | ⟨j, rest, hk, -, he⟩ | ⟨-, -, he⟩ | ⟨items, rest, hk, -, he⟩ <;>
    rw [he]
  · exact ⟨_, rfl, by simp, by simp, rfl, rfl, rfl, rfl, .inr ⟨by simp, rfl⟩⟩
  · exact ⟨_, rfl, by simp, by simp, rfl, rfl, rfl, rfl, .inr ⟨by simp, rfl⟩⟩
  · exact ⟨_, rfl, by simp, by simp, rfl, rfl, rfl, rfl, .inr ⟨by simp, rfl⟩⟩
  · exact ⟨_, rfl, by simp, by simp, rfl, rfl, rfl, rfl, .inr ⟨by simp, rfl⟩⟩
  · exact ⟨_, rfl, by simp, by simp, rfl, rfl, rfl, rfl, .inl ⟨j, rfl, by simp [pairOf, hk]⟩⟩
  · exact ⟨_, rfl, by simp, by simp, rfl, rfl, rfl, rfl, .inl ⟨j, rfl, by simp [pairOf, hk]⟩⟩
  · exact ⟨_, rfl, by simp, by simp, rfl, rfl, rfl, rfl, .inr ⟨by simp, rfl⟩⟩
  · exact ⟨_, rfl, by simp, by simp [hk], rfl, rfl, rfl, rfl, .inr ⟨by simp, rfl⟩⟩

/-! ## After destroy -/

/-- Only destroy enters its section when the channel is closing, and nobody is in one any more when
it is about to be freed. -/
structure Closing (c : Calls ι) (s : State ι) : Prop where
  inside : ∀ i, s.pc i = .inside → (s.closing = true ↔ c.kind i = .destroy)
  ended : (s.freed = true ∨ ∃ i items, s.pc i = .freeing items) →
    s.closing = true ∧ ∀ i, s.pc i ≠ .inside

omit [DecidableEq ι] in
/-- A step that brings nobody to the end of a destroy comes from a state with the same end. -/
theorem ended_before (ho : s'.freed = true ∨ ∃ i items, s'.pc i = .freeing items)
    (hfr : s'.freed = s.freed)
    (hst : ∀ k items, s'.pc k = .freeing items → s.pc k = .freeing items) :
    s.freed = true ∨ ∃ i items, s.pc i = .freeing items := by
  rcases ho with hf | ⟨k, items, hk⟩
  · exact .inl (hfr ▸ hf)
  · exact .inr ⟨k, items, hst k items hk⟩

/-- The caller that goes on to `p` is not at the end of a destroy. -/
theorem goto_freeing {p : Pc ι} (hp : ∀ items, p ≠ .freeing items) (k : ι) (items : List ι)
    (hk : (s.goto i p).pc k = .freeing items) : s.pc k = .freeing items := by
  rw [Inv.goto_pc] at hk
  split at hk
  · exact absurd hk (hp items)
  · exact hk

theorem copy_freeing (k : ι) (items : List ι) (hk : (s.copy c i j).pc k = .freeing items) :
    s.pc k = .freeing items := by
  by_cases he : k = i
  · simp [State.copy, State.goto, he] at hk
  · simpa [State.copy, State.goto, he] using hk

theorem Closing.step (h : Inv c s) (hc : Closing c s) (hs : Step c s s') : Closing c s' := by
  rcases hs.stages h with ⟨-, -, hcl, hfr, -, hst⟩ | ⟨i, hw, hl, hop, rfl⟩ | ⟨i, hin, rfl⟩ |
    ⟨i, j, hp, rfl⟩ | ⟨i, items, hf, rfl⟩
  · refine ⟨fun k hk => ?_, fun ho => ?_⟩
    · rw [hcl]
      exact hc.inside k ((stage_inside (hst k)).1 hk)
    · have := hc.ended (ended_before ho hfr fun k items => (stage_freeing (hst k) items).1)
      exact ⟨hcl ▸ this.1, fun k hk => this.2 k ((stage_inside (hst k)).1 hk)⟩
  · -- the channel is still open, so that destroy has not come that far
    refine ⟨fun k hk => ?_, fun ho => ?_⟩
    · by_cases he : k = i
      · simp [he]
      · rw [Inv.goto_pc, if_neg he] at hk
        exact absurd (by simp [hk]) (h.unlocked hl (i := k))
    · have hopen := (hc.ended (ended_before ho rfl (goto_freeing (by simp)))).1
      simp [hop] at hopen
  · obtain ⟨p, hpc, hpi, hpf, -, hcl, hfr, -⟩ := s.after_stage c i
    have hout : ∀ k, (s.after c i).pc k ≠ .inside := fun k hk => by
      rw [hpc, Function.update_apply] at hk
      split at hk
      · exact hpi hk
      · rename_i he
        exact he (h.locked_unique (by simp [hk]) (by simp [hin]))
    refine ⟨fun k hk => absurd hk (hout k), fun ho => ⟨?_, hout⟩⟩
    rw [hcl]
    rcases ho with hf | ⟨k, items, hk⟩
    · exact (hc.ended (.inl (hfr ▸ hf))).1
    · rw [hpc, Function.update_apply] at hk
      split at hk
      · exact (hc.inside i hin).2 (hpf items hk)
      · exact (hc.ended (.inr ⟨k, items, hk⟩)).1
  · have hin : ∀ k, (s.copy c i j).pc k = .inside ↔ s.pc k = .inside := fun k => by
      by_cases he : k = i <;> simp [State.copy, State.goto, he, hp]
    refine ⟨fun k hk => hc.inside k ((hin k).1 hk), fun ho => ?_⟩
    have := hc.ended (ended_before ho rfl copy_freeing)
    exact ⟨this.1, fun k hk => this.2 k ((hin k).1 hk)⟩
  · have hov := hc.ended (.inr ⟨i, items, hf⟩)
    have hin : ∀ k, (s.free i items).pc k ≠ .inside := fun k hk => by
      by_cases he : k = i
      · simp [State.free, State.goto, he] at hk
      · exact hov.2 k (by simpa [State.free, State.goto, he] using hk)
    exact ⟨fun k hk => absurd hk (hin k), fun _ => ⟨hov.1, hin⟩⟩

theorem Reached.closing (h : Reached c s) : Closing c s :=
  h.invariant_from (fun _ => Reached.inv)
    (by rintro _ ⟨mem, rfl⟩; exact ⟨by simp [State.start], by simp [State.start]⟩)
    fun _ _ hI hJ hs => hJ.step hI hs

/-! ## Transfers -/

/-- A pair is what either of its calls makes with the other. -/
theorem Inv.pairOf_eq (h : Inv c s) (hp : (i, j) ∈ s.pairs) :
    State.pairOf c i j = (i, j) ∧ State.pairOf c j i = (i, j) := by
  have h1 := h.senders.1 _ hp
  have h2 := h.receivers.1 _ hp
  simp only at h1 h2
  simp [State.pairOf, h1, h2]

theorem Inv.pairOf_mem (h : Inv c s) (hp : s.Paired i j) : State.pairOf c i j ∈ s.pairs := by
  rcases hp with hp | hp
  · rwa [(h.pairOf_eq hp).1]
  · rwa [(h.pairOf_eq hp).2]

/-- Each pair is transferred once, or the call that popped the other is about to transfer it. -/
structure Transfers (c : Calls ι) (s : State ι) : Prop where
  nodup : (s.copies.map Copy.ends).Nodup
  sub : ∀ p ∈ s.copies.map Copy.ends, p ∈ s.pairs
  due : ∀ i j, s.pc i = .popped j → State.pairOf c i j ∉ s.copies.map Copy.ends
  made : ∀ p ∈ s.pairs, p ∈ s.copies.map Copy.ends ∨ s.pc p.1 = .popped p.2 ∨
    s.pc p.2 = .popped p.1

omit [DecidableEq ι] in
/-- A step that makes no pair and no transfer. -/
theorem Transfers.congr (ht : Transfers c s) (hp : s'.pairs = s.pairs) (hc : s'.copies = s.copies)
    (hpc : ∀ k j, s'.pc k = .popped j ↔ s.pc k = .popped j) : Transfers c s' where
  nodup := hc ▸ ht.nodup
  sub := hc ▸ hp ▸ ht.sub
  due k j hk := hc ▸ ht.due k j ((hpc k j).1 hk)
  made q hq := by
    rw [hc, hpc, hpc]
    exact ht.made q (hp ▸ hq)

theorem Transfers.goto (ht : Transfers c s) {p : Pc ι} (hpc : s'.pc = Function.update s.pc i p)
    (hp : s'.pairs = s.pairs) (hc : s'.copies = s.copies) (hi : (s.pc i).transferring = false)
    (hpi : p.transferring = false) : Transfers c s' := by
  refine ht.congr hp hc fun k j => ?_
  rw [hpc, Function.update_apply]
  split
  · rename_i he
    constructor
    · rintro rfl
      simp at hpi
    · intro hk
      simp [← he, hk] at hi
  · rfl

theorem Transfers.step (h : Inv c s) (ht : Transfers c s) (hs : Step c s s') :
    Transfers c s' := by
  rcases hs.stages h with ⟨hp, hc, -, -, -, hst⟩ | ⟨i, hw, -, -, rfl⟩ | ⟨i, hin, rfl⟩ |
    ⟨i, j, hp, rfl⟩ | ⟨i, items, hf, rfl⟩
  · exact ht.congr hp hc fun k j => stage_popped (hst k) j
  · exact ht.goto rfl rfl rfl (by simp [hw]) (by simp)
  · obtain ⟨p, hpc, -, -, hc, -, -, -, ⟨j, rfl, hpairs⟩ | ⟨hpj, hpairs⟩⟩ := s.after_stage c i
    · have hnew : State.pairOf c i j ∉ s.copies.map Copy.ends := fun hm => by
        refine h.unmatched_inside hin ⟨j, ?_⟩
        have := ht.sub _ hm
        unfold State.pairOf at this
        split at this
        · exact .inl this
        · exact .inr this
      have hold : ∀ {k g}, s.pc k = .popped g → (s.after c i).pc k = .popped g := fun {k g} hk => by
        rw [hpc, Function.update_of_ne fun he => by simp [he, hin] at hk]
        exact hk
      refine ⟨hc ▸ ht.nodup, fun q hq => ?_, fun k g hk => ?_, fun q hq => ?_⟩
      · rw [hpairs]
        exact List.mem_append_left _ (ht.sub q (hc ▸ hq))
      · rw [hc]
        rw [hpc, Function.update_apply] at hk
        split at hk
        · rename_i he
          cases hk
          exact he ▸ hnew
        · exact ht.due k g hk
      · rw [hpairs] at hq
        rcases List.mem_append.1 hq with hq | hq
        · rw [hc]
          exact (ht.made q hq).imp id (Or.imp hold hold)
        · rw [List.mem_singleton.1 hq, hpc]
          right
          unfold State.pairOf
          split
          · exact .inl (Function.update_self ..)
          · exact .inr (Function.update_self ..)
    · refine ht.goto hpc hpairs hc (by simp [hin]) ?_
      cases p <;> simp_all
  · have hf := h.fits i
    simp only [Fits, hp] at hf
    have hends : (s.copy c i j).copies.map Copy.ends =
        s.copies.map Copy.ends ++ [State.pairOf c i j] := by
      simp [State.copy, Copy.ends]
    have hpc : ∀ k, (s.copy c i j).pc k = if k = i then .copied j else s.pc k := fun k => by
      simp [State.copy, State.goto, Function.update_apply]
    have hjw := h.waiting_of_held (g := j) (i := i) (by simp [hp])
    refine ⟨?_, fun q hq => ?_, fun k g hk => ?_, fun q hq => ?_⟩
    · rw [hends]
      exact List.nodup_append.2 ⟨ht.nodup, by simp, fun a ha b hb => by
        rw [List.mem_singleton.1 hb]
        exact fun he => ht.due i j hp (he ▸ ha)⟩
    · rw [hends] at hq
      rcases List.mem_append.1 hq with hq | hq
      · exact ht.sub q hq
      · exact List.mem_singleton.1 hq ▸ h.pairOf_mem hf.1
    · -- another call that is about to transfer is in another pair
      rw [hpc] at hk
      split at hk
      · cases hk
      · rename_i hne
        rw [hends]
        intro hm
        rcases List.mem_append.1 hm with hm | hm
        · exact ht.due k g hk hm
        · have hk' := h.fits k
          simp only [Fits, hk] at hk'
          have hm := List.mem_singleton.1 hm
          have hkj : k ≠ j := fun he => by simp [he, hjw] at hk
          unfold State.pairOf at hm
          split at hm <;> split at hm <;> simp_all
    · rw [hends, hpc, hpc]
      rcases ht.made q hq with hq' | hq' | hq'
      · exact .inl (List.mem_append_left _ hq')
      · by_cases he : q.1 = i
        · obtain rfl : j = q.2 := by
            rw [he, hp] at hq'
            exact Pc.popped.inj hq'
          refine .inl (List.mem_append_right _ (List.mem_singleton.2 ?_))
          rw [← he, (h.pairOf_eq hq).1]
        · exact .inr (.inl (by rw [if_neg he]; exact hq'))
      · by_cases he : q.2 = i
        · obtain rfl : j = q.1 := by
            rw [he, hp] at hq'
            exact Pc.popped.inj hq'
          refine .inl (List.mem_append_right _ (List.mem_singleton.2 ?_))
          rw [← he, (h.pairOf_eq hq).2]
        · exact .inr (.inr (by rw [if_neg he]; exact hq'))
  · exact ht.goto rfl rfl rfl (by simp [hf]) (by simp)

theorem Reached.transfers (h : Reached c s) : Transfers c s :=
  h.invariant_from (fun _ => Reached.inv)
    (by
      rintro _ ⟨mem, rfl⟩
      exact ⟨List.nodup_nil, by simp [State.start], by simp [State.start], by simp [State.start]⟩)
    fun _ _ hI hJ hs => hJ.step hI hs

/-! ## What is transferred -/

theorem memcpy_inside {dst src n k : Nat} (mem : Memory) (hk : k < n) :
    memcpy dst src n mem (dst + k) = mem (src + k) := by
  have h1 : dst ≤ dst + k ∧ dst + k < dst + n := by omega
  rw [memcpy, if_pos h1, Nat.add_sub_cancel_left]

theorem memcpy_outside {dst src n a : Nat} (mem : Memory) (ha : a < dst ∨ dst + n ≤ a) :
    memcpy dst src n mem a = mem a := by
  have h1 : ¬ (dst ≤ a ∧ a < dst + n) := by omega
  rw [memcpy, if_neg h1]

/-- The transfers made so far were whole, and nobody has to read the item size of a freed
channel. -/
structure Whole (c : Calls ι) (s : State ι) : Prop where
  exact : ∀ k ∈ s.copies, k.Exact c
  size : s.freed = false → s.ch.itemSize = c.itemSize
  still : s.freed = true → ∀ i, (s.pc i).transferring = false

omit [DecidableEq ι] in
theorem transferring_congr (h : (s'.pc k).stage = (s.pc k).stage) :
    (s'.pc k).transferring = (s.pc k).transferring := by
  cases hs : s.pc k <;> cases hs' : s'.pc k <;> simp_all [Pc.stage]

theorem Whole.step (h : Inv c s) (hc : Closing c s) (hw : Whole c s) (hs : Guarded c s s') :
    Whole c s' := by
  have hguard := hs.2
  rcases hs.1.stages h with ⟨-, hco, -, hfr, hsize, hst⟩ | ⟨i, hwant, -, hop, rfl⟩ |
    ⟨i, hin, rfl⟩ | ⟨i, j, hp, rfl⟩ | ⟨i, items, hf, rfl⟩
  · refine ⟨hco ▸ hw.exact, fun hf => ?_, fun hf k => ?_⟩
    · rw [hsize (hfr ▸ hf)]
      exact hw.size (hfr ▸ hf)
    · rw [transferring_congr (hst k)]
      exact hw.still (hfr ▸ hf) k
  · refine ⟨hw.exact, hw.size, fun hf => ?_⟩
    simp [(hc.ended (.inl hf)).1] at hop
  · obtain ⟨p, -, -, -, hco, -, hfr, hsize, -⟩ := s.after_stage c i
    refine ⟨hco ▸ hw.exact, fun hf => ?_, fun hf => ?_⟩
    · rw [hsize]
      exact hw.size (hfr ▸ hf)
    · exact absurd hin ((hc.ended (.inl (hfr ▸ hf))).2 i)
  · -- a call that has still to transfer finds the channel as it was created
    have hfr : s.freed = false := by
      by_contra hf
      have := hw.still (by simpa using hf) i
      simp [hp] at this
    refine ⟨fun k hk => ?_, hw.size, fun hf => ?_⟩
    · rcases List.mem_append.1 hk with hk | hk
      · exact hw.exact k hk
      · obtain rfl := List.mem_singleton.1 hk
        rw [hw.size hfr]
        exact ⟨fun n hn => memcpy_inside _ hn, fun a ha => memcpy_outside _ ha⟩
    · simp [State.copy, State.goto, hfr] at hf
  · refine ⟨hw.exact, fun hf => ?_, fun _ k => ?_⟩
    · simp [State.free] at hf
    · by_cases he : k = i
      · simp [State.free, State.goto, he]
      · cases hfr : s.freed with
        | true => simpa [State.free, State.goto, he] using hw.still hfr k
        | false => simpa [State.free, State.goto, he] using hguard hfr rfl k

theorem GuardedReached.reached (h : GuardedReached c s) : Reached c s := h.mono fun _ _ hs => hs.1

theorem GuardedReached.whole (h : GuardedReached c s) : Whole c s :=
  h.invariant_from (I := fun s => Inv c s ∧ Closing c s)
    (fun s (hr : GuardedReached c s) => ⟨hr.reached.inv, hr.reached.closing⟩)
    (by rintro _ ⟨mem, rfl⟩; exact ⟨by simp [State.start], fun _ => rfl, by simp [State.start]⟩)
    fun _ _ hI hJ hs => hJ.step hI.1 hI.2 hs

/-! ## The matching -/

namespace State

/-- The paired senders and the paired receivers, in the order in which they took the lock. -/
def sends (s : State ι) : List ι := s.acqs.filter (· ∈ s.pairs.map Prod.fst)
def receives (s : State ι) : List ι := s.acqs.filter (· ∈ s.pairs.map Prod.snd)

end State

/-- **The rendezvous**: what holds of the calls of a channel in a state. -/
structure Rendezvous (c : Calls ι) (s : State ι) : Prop where
  kinds : ∀ p ∈ s.pairs, c.kind p.1 = .send ∧ c.kind p.2 = .receive
  /-- No call is in two pairs. -/
  disjoint : (s.pairs.map Prod.fst).Nodup ∧ (s.pairs.map Prod.snd).Nodup
  /-- The `k`-th paired sender to take the lock is paired with the `k`-th paired receiver. -/
  order : s.pairs.map Prod.fst = s.sends ∧ s.pairs.map Prod.snd = s.receives
  results : ∀ i r, s.pc i = .done r → r = success ∨ r = closed ∨ r = destroyed
  /-- A call that returns succeeds exactly when it is paired. -/
  paired : ∀ i r, s.pc i = .done r → (r = success ↔ s.Matched i)
  /-- No pair is transferred twice, and nothing else is. -/
  once : (s.copies.map Copy.ends).Nodup ∧ ∀ k ∈ s.copies, k.ends ∈ s.pairs
  /-- The item of a call that succeeded has been transferred. -/
  transferred : ∀ i, s.pc i = .done success → ∃ k ∈ s.copies, k.sender = i ∨ k.receiver = i
  exact : ∀ k ∈ s.copies, k.Exact c

theorem filter_mem_of_sublist {l₁ l₂ : List ι} (h : l₁.Sublist l₂) (hn : l₂.Nodup) :
    l₂.filter (· ∈ l₁) = l₁ := by
  induction h with
  | slnil => rfl
  | cons a h ih =>
    obtain ⟨ha, hn⟩ := List.nodup_cons.1 hn
    rw [List.filter_cons_of_neg (by simpa using fun hm => ha (h.subset hm)), ih hn]
  | cons_cons a h ih =>
    obtain ⟨ha, hn⟩ := List.nodup_cons.1 hn
    rw [List.filter_cons_of_pos (by simp)]
    congr 1
    refine (List.filter_congr fun x hx => ?_).trans (ih hn)
    have hxa : x ≠ a := fun he => ha (he ▸ hx)
    simp [hxa]

theorem Inv.secs_sublist (h : Inv c s) : s.secs.Sublist s.acqs := by
  by_cases hin : ∀ i, s.pc i ≠ .inside
  · rw [h.outside hin]
  · obtain ⟨i, hi⟩ := not_forall.1 hin
    rw [h.inside i (not_not.1 hi)]
    exact List.sublist_append_left _ _

/-- The item of a call that has returned was not left to be transferred. -/
theorem Transfers.of_matched (h : Inv c s) (ht : Transfers c s) {r : Int}
    (hi : s.pc i = .done r) (hm : s.Matched i) : ∃ k ∈ s.copies, k.sender = i ∨ k.receiver = i := by
  have hpopped : ∀ {k j}, s.pc k = .popped j → k ≠ i ∧ j ≠ i := fun {k j} hk => by
    have hj := h.waiting_of_held (g := j) (i := k) (by simp [hk])
    constructor
    · rintro rfl
      simp [hi] at hk
    · rintro rfl
      simp [hi] at hj
  obtain ⟨j, hp | hp⟩ := hm
  · rcases ht.made _ hp with hc | hc | hc
    · obtain ⟨k, hk, he⟩ := List.mem_map.1 hc
      exact ⟨k, hk, .inl (congrArg Prod.fst he)⟩
    · exact absurd rfl (hpopped hc).1
    · exact absurd rfl (hpopped hc).2
  · rcases ht.made _ hp with hc | hc | hc
    · obtain ⟨k, hk, he⟩ := List.mem_map.1 hc
      exact ⟨k, hk, .inr (congrArg Prod.snd he)⟩
    · exact absurd rfl (hpopped hc).2
    · exact absurd rfl (hpopped hc).1

theorem GuardedReached.rendezvous (h : GuardedReached c s) : Rendezvous c s := by
  have hI := h.reached.inv
  have ht := h.reached.transfers
  have hdone : ∀ {i r}, s.pc i = .done r →
      r = success ∧ s.Matched i ∨ (r = closed ∨ r = destroyed) ∧ ¬ s.Matched i := fun {i r} hi => by
    have hf := hI.fits i
    rwa [Fits, hi] at hf
  have hfst := (List.sublist_append_left _ _).trans hI.worder
  have hsnd := (List.sublist_append_left _ _).trans hI.rorder
  exact {
    kinds := fun p hp => ⟨hI.senders.1 p hp, hI.receivers.1 p hp⟩
    disjoint := ⟨hfst.nodup hI.secs_nodup, hsnd.nodup hI.secs_nodup⟩
    order := ⟨(filter_mem_of_sublist (hfst.trans hI.secs_sublist) hI.nodup).symm,
      (filter_mem_of_sublist (hsnd.trans hI.secs_sublist) hI.nodup).symm⟩
    results := fun i r hi => (hdone hi).imp And.left And.left
    paired := fun i r hi => by
      rcases hdone hi with ⟨rfl, hm⟩ | ⟨hr, hm⟩
      · exact ⟨fun _ => hm, fun _ => rfl⟩
      · refine ⟨fun he => ?_, fun hm' => absurd hm' hm⟩
        rcases hr with rfl | rfl <;> cases he
    once := ⟨ht.nodup, fun k hk => ht.sub _ (List.mem_map_of_mem hk)⟩
    transferred := fun i hi => by
      rcases hdone hi with ⟨-, hm⟩ | ⟨hr, -⟩
      · exact ht.of_matched hI hi hm
      · rcases hr with he | he <;> cases he
    exact := h.whole.exact }

/-- **Channel rendezvous.** In every run in which destroy does not free the channel while a call
that popped a peer has still to read `item_size`, the calls that succeed are matched, one send with
one receive, in the order in which they took the lock, and each pair has been transferred once,
whole; and no step of a call writes to memory but such a transfer. -/
theorem channel_rendezvous (h : GuardedReached c s) :
    Rendezvous c s ∧ ∀ s', Guarded c s s' → s'.pc ≠ s.pc →
      s'.mem = s.mem ∧ s'.copies = s.copies ∨
      ∃ k : Copy ι, k.Exact c ∧ k.ends ∈ s.pairs ∧ s'.copies = s.copies ++ [k] ∧
        k.before = s.mem ∧ k.after = s'.mem := by
  refine ⟨h.rendezvous, fun s' hs hpc => ?_⟩
  have h' := GuardedReached.rendezvous (h.next hs)
  cases hs.1 with
  | impl i hin =>
    rcases s.after_cases c i with ⟨-, -, he⟩ | ⟨-, -, he⟩ | ⟨-, -, -, he⟩ | ⟨-, -, -, he⟩ |
      ⟨_, _, -, -, -, he⟩ | ⟨_, _, -, -, he⟩ | ⟨-, -, he⟩ | ⟨_, _, -, -, he⟩ <;>
      exact .inl (by rw [he]; exact ⟨rfl, rfl⟩)
  | copy i j hp =>
    have hk : (⟨(State.pairOf c i j).1, (State.pairOf c i j).2, s.mem, (s.copy c i j).mem⟩ :
        Copy ι) ∈ (s.copy c i j).copies :=
      List.mem_append_right s.copies (List.mem_singleton.2 rfl)
    exact .inr ⟨_, h'.exact _ hk, h'.once.2 _ hk, rfl, rfl, rfl⟩
  | user mem => exact absurd rfl hpc
  | reuse n hf => exact absurd rfl hpc
  | _ => exact .inl ⟨rfl, rfl⟩

theorem Guarded.of_freed (hs : Step c s s') (hf : s'.freed = s.freed) : Guarded c s s' :=
  ⟨hs, fun h h' => by simp [h', h] at hf⟩

/-- A receive, a send of one byte, and destroy. -/
def sample : Calls Nat where
  kind i := if i = 0 then .receive else if i = 1 then .send else .destroy
  data i := if i = 0 then 100 else 200
  itemSize := 1

/-- The memory with a 7 in the sender's buffer. -/
def sampleMemory : Memory := fun a => if a = 200 then 7 else 0

/-- The receiver 0 blocks, the sender 1 pops it, and both return. -/
theorem channel_rendezvous_run : ∃ s : State Nat, GuardedReached sample s ∧
    s.pc 0 = .done success ∧ s.pc 1 = .done success ∧ s.mem 100 = 7 ∧ Rendezvous sample s := by
  have h0 : GuardedReached sample (.start sample sampleMemory) := .start ⟨_, rfl⟩
  have h1 := h0.next (.of_freed (.call 0 rfl rfl) rfl)
    |>.next (.of_freed (.acquire 0 rfl rfl rfl) rfl)
    |>.next (.of_freed (.impl 0 rfl) rfl)
    |>.next (.of_freed (.publish 0 rfl) rfl)
  have h2 := h1.next (.of_freed (.call 1 rfl rfl) rfl)
    |>.next (.of_freed (.test 1 rfl rfl) rfl)
    |>.next (.of_freed (.acquire 1 rfl rfl rfl) rfl)
    |>.next (.of_freed (.impl 1 rfl) rfl)
  have h3 := h2.next (.of_freed (.copy 1 0 rfl) rfl)
    |>.next (.of_freed (.mark 1 0 rfl) rfl)
    |>.next (.of_freed (.switch 1 0 rfl) rfl)
    |>.next (.of_freed (.enqueue 0 1 rfl) rfl)
    |>.next (.of_freed (.ret 0 rfl) rfl)
    |>.next (.of_freed (.ready 1 rfl) rfl)
  exact ⟨_, h3, rfl, rfl, rfl, (channel_rendezvous h3).1⟩

/-- The receiver 0 blocks, the sender 1 pops it and releases the lock, destroy takes the lock and
frees the channel, its memory is cleared, and the sender copies nothing: both succeed. -/
theorem channel_rendezvous_freed : ∃ s : State Nat, Reached sample s ∧
    s.pc 0 = .done success ∧ s.pc 1 = .done success ∧ s.mem 100 ≠ 7 ∧ ¬ Rendezvous sample s := by
  have h0 : Reached sample (.start sample sampleMemory) := .start ⟨_, rfl⟩
  have h1 := h0.next (.call 0 rfl rfl)
    |>.next (.acquire 0 rfl rfl rfl) |>.next (.impl 0 rfl) |>.next (.publish 0 rfl)
  have h2 := h1.next (.call 1 rfl rfl)
    |>.next (.test 1 rfl rfl) |>.next (.acquire 1 rfl rfl rfl)
  have h3 := (h2.next (.impl 1 rfl)).next (.call 2 rfl rfl)
    |>.next (.acquire 2 rfl rfl rfl) |>.next (.impl 2 rfl) |>.next (.free 2 [] rfl)
    |>.next (.reuse 0 rfl)
  have h4 := h3.next (.copy 1 0 rfl)
    |>.next (.mark 1 0 rfl) |>.next (.switch 1 0 rfl) |>.next (.enqueue 0 1 rfl)
    |>.next (.ret 0 rfl) |>.next (.ready 1 rfl)
  refine ⟨_, h4, rfl, rfl, by decide, fun hr => ?_⟩
  have := (hr.exact _ (.head _)).1 0 (by decide)
  exact absurd this (by decide)

end Channel
