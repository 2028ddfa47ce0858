import FjxFiber.Channel.Rendezvous

/-!
# Who accesses a channel that has been freed

A call accesses the channel when it tests `closed`, takes the lock, is in its section, has the lock
released for it, reads `item_size`, or frees the channel (`Pc.accesses`). Once destroy has freed the
channel, all these points but one are behind every call that took the lock before: nobody holds the
lock (`Gone`), and nobody comes to take it. What is left is a call that popped a peer and has still
to read `item_size`; `channel_untouched` says that the freed channel is accessed if and only if
there is such a call when destroy frees it.
-/

set_option autoImplicit false

namespace Channel

open Lib

variable {ι : Type*}

/-- The next step of the call reads or writes the channel. -/
def Pc.accesses : Pc ι → Bool
  | .test | .want | .inside | .publishing | .popped _ | .freeing _ => true
  | _ => false

/-- In the step from `s` to `s'` a call goes on from a point where it accesses the channel. -/
def Touches (s s' : State ι) : Prop := ∃ i, (s.pc i).accesses = true ∧ s'.pc i ≠ s.pc i

variable [DecidableEq ι] {c : Calls ι} {s s' : State ι} {i j k : ι}

/-! ## Steps, as far as the lock is concerned -/

theorem goto_locked {p : Pc ι} (hp : p.locked = false)
    (hk : ((s.goto i p).pc k).locked = true) : (s.pc k).locked = true := by
  rw [Inv.goto_pc] at hk
  split at hk
  · rw [hp] at hk
    cases hk
  · exact hk

/-- Who holds the lock after a step held it before, unless the channel was still open. -/
theorem Step.locked (hs : Step c s s') (hk : (s'.pc k).locked = true) :
    (s.pc k).locked = true ∨ s.closing = false := by
  cases hs with
  | acquire i hpc hlock hopen => exact .inr hopen
  | impl i hpc =>
    left
    by_cases he : k = i
    · rw [he, hpc]
      rfl
    · obtain ⟨p, hp, -⟩ := s.after_stage c i
      rwa [hp, Function.update_of_ne he] at hk
  | call i hpc => exact .inl (goto_locked (by cases c.kind i <;> rfl) hk)
  | test i hpc =>
    exact .inl (goto_locked (by cases s.ch.closed <;> cases c.kind i <;> rfl) hk)
  | switch i j => exact .inl (goto_locked (by simp) (goto_locked (by simp) hk))
  | enqueue i j => exact .inl (goto_locked (by simp) (goto_locked (by simp) hk))
  | wake i g => exact .inl (goto_locked (by simp) (goto_locked (by simp) hk))
  | publish | mark | ready | ret | free | setState | enqueueList | woken =>
    exact .inl (goto_locked (by simp) hk)
  | copy i j => exact .inl (goto_locked (i := i) (p := .copied j) (by simp) hk)
  | user | reuse => exact .inl hk

/-- From where a call accesses the channel it goes on by itself, and takes the lock or tests
`closed` only while the channel is open. -/
theorem Step.moves (h : Inv c s) (hs : Step c s s') (hk : (s.pc k).accesses = true)
    (hne : s'.pc k ≠ s.pc k) :
    s.closing = false ∨ (s.pc k).locked = true ∨ (s.pc k).transferring = true ∨
      ∃ items, s.pc k = .freeing items := by
  have hgoto : ∀ {s : State ι} {i : ι} {p : Pc ι}, (s.goto i p).pc k ≠ s.pc k → k = i := by
    intro s i p hne
    by_contra he
    rw [Inv.goto_pc, if_neg he] at hne
    exact hne rfl
  -- a call that is switched to or woken was waiting
  have hgoto₂ : ∀ {i j : ι} {p q : Pc ι}, ((s.goto j q).goto i p).pc k ≠ s.pc k →
      k = i ∨ k = j := by
    intro i j p q hne
    by_contra he
    rw [not_or] at he
    rw [Inv.goto_pc, if_neg he.1, Inv.goto_pc, if_neg he.2] at hne
    exact hne rfl
  cases hs with
  | call i hpc hopen => exact .inl hopen
  | test i hpc hopen => exact .inl hopen
  | acquire i hpc hlock hopen => exact .inl hopen
  | impl i hpc =>
    obtain ⟨p, hp, -⟩ := s.after_stage c i
    have he : k = i := by
      by_contra he
      rw [hp, Function.update_of_ne he] at hne
      exact hne rfl
    rw [he, hpc]
    exact .inr (.inl rfl)
  | publish i hpc =>
    rw [hgoto hne, hpc]
    exact .inr (.inl rfl)
  | copy i j hpc =>
    rw [hgoto (i := i) (p := .copied j) hne, hpc]
    exact .inr (.inr (.inl rfl))
  | free i items hpc =>
    rw [hgoto hne]
    exact .inr (.inr (.inr ⟨items, hpc⟩))
  | switch i j hpc =>
    have hj := h.waiting_of_held (g := j) (i := i) (by simp [hpc])
    rcases hgoto₂ hne with he | he
    · simp [he, hpc, Pc.accesses] at hk
    · simp [he, hj, Pc.accesses] at hk
  | enqueue i j hpc =>
    have hf := h.fits i
    simp only [Fits, hpc] at hf
    rcases hgoto₂ hne with he | he
    · simp [he, hpc, Pc.accesses] at hk
    · simp [he, hf.1, Pc.accesses] at hk
  | wake i g items hpc =>
    have hg := h.waiting_of_held (g := g) (i := i) (by simp [hpc])
    rcases hgoto₂ hne with he | he
    · simp [he, hpc, Pc.accesses] at hk
    · simp [he, hg, Pc.accesses] at hk
  | mark i j hpc => simp [hgoto hne, hpc, Pc.accesses] at hk
  | ready i hpc => simp [hgoto hne, hpc, Pc.accesses] at hk
  | ret i hpc => simp [hgoto hne, hpc, Pc.accesses] at hk
  | setState i g todo items hpc =>
    simp [hgoto (i := i) (p := .marking todo (items ++ [g])) hne, hpc, Pc.accesses] at hk
  | enqueueList i items hpc => simp [hgoto hne, hpc, Pc.accesses] at hk
  | woken i hpc => simp [hgoto hne, hpc, Pc.accesses] at hk
  | user mem => exact absurd rfl hne
  | reuse n => exact absurd rfl hne

/-! ## After the free -/

/-- At the end of a destroy nobody holds the lock, and one call frees the channel, once. -/
structure Gone (s : State ι) : Prop where
  unlocked : (s.freed = true ∨ ∃ i items, s.pc i = .freeing items) →
    ∀ k, (s.pc k).locked = false
  once : s.freed = true → ∀ i items, s.pc i ≠ .freeing items
  sole : ∀ i j items items', s.pc i = .freeing items → s.pc j = .freeing items' → i = j

/-- A step that neither ends a section nor frees the channel. -/
theorem Gone.keep (hc : Closing c s) (hg : Gone s) (hs : Step c s s')
    (hfr : s'.freed = s.freed)
    (hst : ∀ k items, s'.pc k = .freeing items → s.pc k = .freeing items) : Gone s' where
  unlocked ho k := by
    have ho' := ended_before ho hfr hst
    by_contra hk
    rw [Bool.not_eq_false] at hk
    rcases hs.locked hk with hk | hopen
    · rw [hg.unlocked ho' k] at hk
      cases hk
    · rw [(hc.ended ho').1] at hopen
      cases hopen
  once hf i items hi := hg.once (hfr ▸ hf) i items (hst i items hi)
  sole i j items items' hi hj := hg.sole i j items items' (hst i items hi) (hst j items' hj)

theorem Gone.step (h : Inv c s) (hc : Closing c s) (hg : Gone s) (hs : Step c s s') : Gone s' := by
  rcases hs.stages h with ⟨-, -, -, hfr, -, hst⟩ | ⟨i, -, -, -, rfl⟩ | ⟨i, hin, rfl⟩ |
    ⟨i, j, -, rfl⟩ | ⟨i, items, hf, rfl⟩
  · exact hg.keep hc hs hfr fun k items => (stage_freeing (hst k) items).1
  · exact hg.keep hc hs rfl (goto_freeing (by simp))
  · -- nobody was at the end of a destroy, since the caller is in its section
    obtain ⟨p, hpc, -, -, -, -, hfr, -, -⟩ := s.after_stage c i
    have hno : ¬ (s.freed = true ∨ ∃ i items, s.pc i = .freeing items) :=
      fun ho => (hc.ended ho).2 i hin
    have hold : ∀ k items, (s.after c i).pc k = .freeing items → k = i := by
      intro k items hk
      by_contra he
      rw [hpc, Function.update_of_ne he] at hk
      exact hno (.inr ⟨k, items, hk⟩)
    refine ⟨fun ho k => ?_, fun hf => absurd (.inl (hfr ▸ hf)) hno, fun j k _ _ hj hk => ?_⟩
    · rcases ho with hf | ⟨j, items, hj⟩
      · exact absurd (.inl (hfr ▸ hf)) hno
      · obtain rfl := hold j items hj
        rw [hpc, Function.update_self] at hj
        rw [hpc, Function.update_apply]
        split
        · rw [hj]
          rfl
        · rename_i hne
          by_contra hk
          rw [Bool.not_eq_false] at hk
          exact hne (h.locked_unique hk (by simp [hin]))
    · rw [hold j _ hj, hold k _ hk]
  · exact hg.keep hc hs rfl copy_freeing
  · have hunl := hg.unlocked (.inr ⟨i, items, hf⟩)
    have hfree : ∀ k items', (s.free i items).pc k ≠ .freeing items' := by
      intro k items' hk
      have hk' : s.pc k = .freeing items' := goto_freeing (by simp) k items' hk
      have he := hg.sole k i _ _ hk' hf
      rw [he] at hk
      simp [State.free, State.goto] at hk
    refine ⟨fun _ k => ?_, fun _ => hfree, fun j _ items' _ hj => absurd hj (hfree j items')⟩
    by_contra hk
    rw [Bool.not_eq_false] at hk
    have := goto_locked (i := i) (p := .marking items []) (by simp) hk
    rw [hunl k] at this
    cases this

theorem Reached.gone (h : Reached c s) : Gone s :=
  h.invariant_from (I := fun s => Inv c s ∧ Closing c s)
    (fun _ (hr : Reached c _) => ⟨hr.inv, hr.closing⟩)
    (by
      rintro _ ⟨mem, rfl⟩
      exact ⟨fun _ _ => rfl, by simp [State.start], by simp [State.start]⟩)
    fun _ _ hI hJ hs => hJ.step hI.1 hI.2 hs

/-- **A freed channel is accessed only to read `item_size`.** -/
theorem Reached.touched (h : Reached c s) (hf : s.freed = true) (hs : Step c s s')
    (ht : Touches s s') : ∃ k, (s.pc k).transferring = true := by
  obtain ⟨k, hk, hne⟩ := ht
  have hclosing := (h.closing.ended (.inl hf)).1
  rcases hs.moves h.inv hk hne with hopen | hlocked | htr | ⟨items, hfree⟩
  · rw [hclosing] at hopen
    cases hopen
  · rw [h.gone.unlocked (.inl hf) k] at hlocked
    cases hlocked
  · exact ⟨k, htr⟩
  · exact absurd hfree (h.gone.once hf k items)

/-- Nobody pops a peer from a freed channel. -/
theorem Reached.still (h : Reached c s) (hf : s.freed = true)
    (hno : ∀ k, (s.pc k).transferring = false) (hs : Step c s s') :
    s'.freed = true ∧ ∀ k, (s'.pc k).transferring = false := by
  rcases hs.stages h.inv with ⟨-, -, -, hfr, -, hst⟩ | ⟨i, -, -, hop, -⟩ | ⟨i, hin, -⟩ |
    ⟨i, j, hp, -⟩ | ⟨i, items, hfree, -⟩
  · exact ⟨hfr ▸ hf, fun k => (transferring_congr (hst k)).trans (hno k)⟩
  · rw [(h.closing.ended (.inl hf)).1] at hop
    cases hop
  · exact absurd hin ((h.closing.ended (.inl hf)).2 i)
  · have := hno i
    rw [hp] at this
    cases this
  · exact absurd hfree (h.gone.once hf i items)

theorem Reached.still_run (h : Reached c s) (hf : s.freed = true)
    (hno : ∀ k, (s.pc k).transferring = false) (hr : Relation.ReflTransGen (Step c) s s') :
    s'.freed = true ∧ ∀ k, (s'.pc k).transferring = false := by
  induction hr with
  | refl => exact ⟨hf, hno⟩
  | tail hr hs ih => exact Reached.still (h.run hr) ih.1 ih.2 hs

/-- A freed channel was freed by the step of one destroy. -/
theorem Reached.free_step (h : Reached c s) (hf : s.freed = true) :
    ∃ s₀ i items, Reached c s₀ ∧ s₀.pc i = .freeing items ∧ s₀.freed = false ∧
      Relation.ReflTransGen (Step c) (s₀.free i items) s := by
  obtain ⟨u, hu, hr⟩ := h
  induction hr with
  | refl =>
    obtain ⟨mem, rfl⟩ := hu
    cases hf
  | @tail t s hr hs ih =>
    have ht : Reached c t := ⟨u, hu, hr⟩
    cases hft : t.freed with
    | true =>
      obtain ⟨s₀, i, items, h0, hi, hf0, hrun⟩ := ih hft
      exact ⟨s₀, i, items, h0, hi, hf0, hrun.tail hs⟩
    | false =>
      rcases hs.stages ht.inv with ⟨-, -, -, hfr, -⟩ | ⟨i, -, -, -, rfl⟩ | ⟨i, -, rfl⟩ |
        ⟨i, j, -, rfl⟩ | ⟨i, items, hi, rfl⟩
      · rw [hfr, hft] at hf
        cases hf
      · exact absurd (hft.symm.trans hf) (by simp)
      · obtain ⟨p, -, -, -, -, -, hfr, -, -⟩ := t.after_stage c i
        rw [hfr, hft] at hf
        cases hf
      · exact absurd (hft.symm.trans hf) (by simp)
      · exact ⟨t, i, items, ht, hi, hft, .refl⟩

/-- **No operation touches a destroyed channel**, provided that none has still to read `item_size`
when destroy frees it, and only then. Every freed channel was freed by one step of one destroy; from
there on no step of any run accesses the channel if and only if, at that step, no send or receive
that has popped a peer is about to copy. In particular no step accesses a freed channel in a run
whose destroy waits for these copies. -/
theorem channel_untouched (h : Reached c s) :
    (∀ i items, s.pc i = .freeing items →
      ((∀ s₁ s₂, Relation.ReflTransGen (Step c) (s.free i items) s₁ → Step c s₁ s₂ →
        ¬ Touches s₁ s₂) ↔ ∀ k, (s.pc k).transferring = false)) ∧
    (s.freed = true → ∃ s₀ i items, Reached c s₀ ∧ s₀.pc i = .freeing items ∧
      s₀.freed = false ∧ Relation.ReflTransGen (Step c) (s₀.free i items) s) ∧
    (GuardedReached c s → s.freed = true → ∀ s', Step c s s' → ¬ Touches s s') := by
  refine ⟨fun i items hi => ⟨fun hno k => ?_, fun hno s₁ s₂ hr hs ht => ?_⟩, h.free_step,
    fun hg hf s' hs ht => ?_⟩
  · -- the copy of a call that popped a peer comes after the free
    by_contra hk
    obtain ⟨j, hj⟩ : ∃ j, s.pc k = .popped j := by
      cases hp : s.pc k <;> simp_all
    have hki : k ≠ i := by
      rintro rfl
      rw [hi] at hj
      cases hj
    have hj' : (s.free i items).pc k = .popped j := (Function.update_of_ne hki _ _).trans hj
    refine hno _ _ .refl (.copy k j hj') ⟨k, by rw [hj']; rfl, ?_⟩
    rw [hj']
    simp [State.copy, State.goto]
  · have hfree : Reached c (s.free i items) := h.next (.free i items hi)
    have hno' : ∀ k, ((s.free i items).pc k).transferring = false := by
      intro k
      unfold State.free
      simp only
      rw [Inv.goto_pc]
      split
      · rfl
      · exact hno k
    obtain ⟨hf, hstill⟩ := hfree.still_run rfl hno' hr
    obtain ⟨k, hk⟩ := Reached.touched (hfree.run hr) hf hs ht
    rw [hstill k] at hk
    cases hk
  · obtain ⟨k, hk⟩ := h.touched hf hs ht
    rw [hg.whole.still hf k] at hk
    cases hk

/-- The receiver 0 blocks, and destroy is about to free the channel: nobody accesses it after. -/
theorem channel_untouched_run : ∃ s : State Nat, Reached sample s ∧ s.pc 2 = .freeing [0] ∧
    ∀ s₁ s₂, Relation.ReflTransGen (Step sample) (s.free 2 [0]) s₁ → Step sample s₁ s₂ →
      ¬ Touches s₁ s₂ := by
  have h0 : Reached sample (.start sample sampleMemory) := .start ⟨_, rfl⟩
  have h1 := h0.next (.call 0 rfl rfl)
    |>.next (.acquire 0 rfl rfl rfl) |>.next (.impl 0 rfl) |>.next (.publish 0 rfl)
  have h2 := h1.next (.call 2 rfl rfl) |>.next (.acquire 2 rfl rfl rfl) |>.next (.impl 2 rfl)
  refine ⟨_, h2, rfl, ((channel_untouched h2).1 2 [0] rfl).2 fun k => ?_⟩
  match k with
  | 0 | 1 | 2 => rfl
  | _ + 3 => rfl

/-- The sender 1 pops the receiver 0 and releases the lock, destroy takes the lock and frees the
channel, and the sender reads `item_size`. -/
theorem channel_touched : ∃ s s' : State Nat, Reached sample s ∧ s.freed = true ∧
    Step sample s s' ∧ Touches s s' := by
  have h0 : Reached sample (.start sample sampleMemory) := .start ⟨_, rfl⟩
  have h1 := h0.next (.call 0 rfl rfl)
    |>.next (.acquire 0 rfl rfl rfl) |>.next (.impl 0 rfl) |>.next (.publish 0 rfl)
  have h2 := h1.next (.call 1 rfl rfl)
    |>.next (.test 1 rfl rfl) |>.next (.acquire 1 rfl rfl rfl) |>.next (.impl 1 rfl)
  have h3 := h2.next (.call 2 rfl rfl)
    |>.next (.acquire 2 rfl rfl rfl) |>.next (.impl 2 rfl) |>.next (.free 2 [] rfl)
  exact ⟨_, _, h3, rfl, .copy 1 0 rfl, 1, rfl, by decide⟩

end Channel
