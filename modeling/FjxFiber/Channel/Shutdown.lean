import FjxFiber.Channel.Rendezvous

/-!
# Close and destroy

`Wakes` is what holds of the callers that close and destroy take: each is resumed once, with the
state its kind of call writes, or is still in the hands of the call that took it, which can go on
and resume it (`exists_finishes`). `Emptied` says that destroy leaves no caller linked, and
`Closed` that the senders blocked when the channel was closed leave in the order in which they were
queued. `channel_shutdown` puts these together with what the critical sections of close, receive and
destroy do.

Receives get the items of those senders as long as the channel is not freed between pop and copy
(`Obtained`); `channel_shutdown_freed` is a run in which it is.
-/

set_option autoImplicit false

namespace Channel

open Lib

variable {ι : Type*} [DecidableEq ι] {c : Calls ι} {s s' : State ι} {i j g k : ι}

/-! ## Steps, as far as the blocked callers are concerned -/

/-- Close and destroy. -/
def Kind.ends : Kind → Bool
  | .close | .destroy => true
  | _ => false

/-- **A step that is not a critical section** changes neither the lists nor `closed`. -/
theorem Step.impl_or (hs : Step c s s') :
    (∃ i, s.pc i = .inside ∧ s' = s.after c i) ∨
    s'.ch.ritemList = s.ch.ritemList ∧ s'.ch.witemList = s.ch.witemList ∧
      s'.ch.closed = s.ch.closed ∧ s'.pairs = s.pairs ∧ s'.taken = s.taken ∧
      s'.closer = s.closer := by
  cases hs with
  | impl i hpc => exact .inl ⟨i, hpc, rfl⟩
  | _ => exact .inr ⟨rfl, rfl, rfl, rfl, rfl, rfl⟩

/-- A step that neither takes nor resumes callers. -/
structure Calm (s s' : State ι) : Prop where
  resumes : s'.resumes = s.resumes
  taken : s'.taken = s.taken
  secs : s'.secs = s.secs
  held : ∀ k, (s'.pc k).held = (s.pc k).held
  blocked : ∀ k, (s'.pc k).blocked = (s.pc k).blocked

/-- `i` resumes `g`. -/
structure Resumes (c : Calls ι) (s s' : State ι) (i g : ι) : Prop where
  resumes : s'.resumes = s.resumes ++ [(i, g)]
  taken : s'.taken = s.taken
  secs : s'.secs = s.secs
  head : (s.pc i).held = g :: (s'.pc i).held
  held : ∀ k, k ≠ i → (s'.pc k).held = (s.pc k).held
  blocked : ∀ k, (s'.pc k).blocked = true → k ≠ g ∧ (s.pc k).blocked = true
  state : (c.kind i).ends = true →
    s'.pc g = .resumed ∧ s'.itemState g = wakeState (c.kind i)

theorem Calm.goto {p : Pc ι} (hpc : s'.pc = Function.update s.pc i p)
    (hsame : s'.resumes = s.resumes ∧ s'.taken = s.taken ∧ s'.secs = s.secs)
    (hheld : p.held = (s.pc i).held) (hblocked : p.blocked = (s.pc i).blocked) : Calm s s' where
  resumes := hsame.1
  taken := hsame.2.1
  secs := hsame.2.2
  held k := by
    by_cases he : k = i
    · rw [hpc, he, Function.update_self, hheld]
    · rw [hpc, Function.update_of_ne he]
  blocked k := by
    by_cases he : k = i
    · rw [hpc, he, Function.update_self, hblocked]
    · rw [hpc, Function.update_of_ne he]

theorem Resumes.goto {p q : Pc ι} (hg : s.pc g = .waiting)
    (hpc : s'.pc = Function.update (Function.update s.pc g q) i p)
    (hsame : s'.resumes = s.resumes ++ [(i, g)] ∧ s'.taken = s.taken ∧ s'.secs = s.secs)
    (hheld : (s.pc i).held = g :: p.held) (hi : (s.pc i).blocked = false ∧ p.blocked = false)
    (hq : q.held = [] ∧ q.blocked = false)
    (state : (c.kind i).ends = true →
      s'.pc g = .resumed ∧ s'.itemState g = wakeState (c.kind i)) : Resumes c s s' i g := by
  have hne : g ≠ i := fun he => by simp [← he, hg] at hi
  have hpc' : ∀ k, s'.pc k = if k = i then p else if k = g then q else s.pc k := fun k => by
    simp [hpc, Function.update_apply]
  refine ⟨hsame.1, hsame.2.1, hsame.2.2, ?_, fun k hk => ?_, fun k hk => ?_, state⟩
  · rw [hpc', if_pos rfl, hheld]
  · rw [hpc', if_neg hk]
    split
    · rename_i he
      rw [he, hq.1, hg]
      rfl
    · rfl
  · rw [hpc'] at hk
    split at hk
    · simp [hi] at hk
    · split at hk
      · simp [hq] at hk
      · exact ⟨‹_›, hk⟩

/-- **What a step does to the blocked callers.** -/
theorem Step.hands (h : Inv c s) (hs : Step c s s') :
    Calm s s' ∨ (∃ i g, Resumes c s s' i g) ∨ ∃ i, s.pc i = .inside ∧ s' = s.after c i := by
  cases hs with
  | impl i hpc => exact .inr (.inr ⟨i, hpc, rfl⟩)
  | switch i j hpc =>
    have hf := h.fits i
    simp only [Fits, hpc] at hf
    refine .inr (.inl ⟨i, j, .goto (h.waiting_of_held (i := i) (by simp [hpc])) rfl
      ⟨rfl, rfl, rfl⟩ (by simp [hpc]) (by simp [hpc]) (by simp) fun hk => ?_⟩)
    rcases hf.1 with hp | hp
    · simp [h.senders.1 _ hp, Kind.ends] at hk
    · simp [h.receivers.1 _ hp, Kind.ends] at hk
  | wake i g items hpc =>
    have hf := h.fits i
    simp only [Fits, hpc] at hf
    have hg := h.waiting_of_held (g := g) (i := i) (by simp [hpc])
    have hne : g ≠ i := fun he => by simp [he, hpc] at hg
    refine .inr (.inl ⟨i, g, .goto hg rfl ⟨rfl, rfl, rfl⟩ (by simp [hpc]) (by simp [hpc])
      (by simp) fun _ => ⟨?_, (hf.2 g (.head _)).1⟩⟩)
    simp [State.goto, hne]
  | enqueue j i hpc =>
    have hf := h.fits j
    simp only [Fits, hpc] at hf
    have hne : i ≠ j := fun he => by simp [he, hpc] at hf
    refine .inl ⟨rfl, rfl, rfl, fun k => ?_, fun k => ?_⟩
    all_goals
      by_cases h1 : k = j
      · simp [Inv.goto_pc, h1, hpc]
      · by_cases h2 : k = i
        · simp [Inv.goto_pc, h2, hne, hf.1]
        · simp [Inv.goto_pc, h1, h2]
  | call i hpc =>
    exact .inl (.goto rfl ⟨rfl, rfl, rfl⟩ (by rw [hpc]; cases c.kind i <;> rfl)
      (by rw [hpc]; cases c.kind i <;> rfl))
  | test i hpc =>
    exact .inl (.goto rfl ⟨rfl, rfl, rfl⟩
      (by rw [hpc]; cases s.ch.closed <;> cases c.kind i <;> rfl)
      (by rw [hpc]; cases s.ch.closed <;> cases c.kind i <;> rfl))
  | setState i g todo items hpc =>
    exact .inl (.goto rfl ⟨rfl, rfl, rfl⟩ (by simp [hpc]) (by simp [hpc]))
  | enqueueList i items hpc =>
    exact .inl (.goto rfl ⟨rfl, rfl, rfl⟩ (by simp [hpc]) (by simp [hpc]))
  | free i items hpc =>
    exact .inl (.goto rfl ⟨rfl, rfl, rfl⟩ (by simp [hpc]) (by simp [hpc]))
  | acquire i hpc => exact .inl (.goto rfl ⟨rfl, rfl, rfl⟩ (by rw [hpc]; rfl) (by rw [hpc]; rfl))
  | publish i hpc => exact .inl (.goto rfl ⟨rfl, rfl, rfl⟩ (by rw [hpc]; rfl) (by rw [hpc]; rfl))
  | copy i j hpc => exact .inl (.goto rfl ⟨rfl, rfl, rfl⟩ (by rw [hpc]; rfl) (by rw [hpc]; rfl))
  | mark i j hpc => exact .inl (.goto rfl ⟨rfl, rfl, rfl⟩ (by rw [hpc]; rfl) (by rw [hpc]; rfl))
  | ready i hpc => exact .inl (.goto rfl ⟨rfl, rfl, rfl⟩ (by rw [hpc]; rfl) (by rw [hpc]; rfl))
  | ret i hpc => exact .inl (.goto rfl ⟨rfl, rfl, rfl⟩ (by rw [hpc]; rfl) (by rw [hpc]; rfl))
  | woken i hpc => exact .inl (.goto rfl ⟨rfl, rfl, rfl⟩ (by rw [hpc]; rfl) (by rw [hpc]; rfl))
  | user mem => exact .inl ⟨rfl, rfl, rfl, fun _ => rfl, fun _ => rfl⟩
  | reuse n => exact .inl ⟨rfl, rfl, rfl, fun _ => rfl, fun _ => rfl⟩

/-- The call only has to return, or has returned. -/
def Pc.ended : Pc ι → Bool
  | .resumed | .done _ => true
  | _ => false

theorem ended_goto {u : State ι} {p : Pc ι} (hpc : u.pc = Function.update s.pc i p)
    (hi : (s.pc i).ended = false) (hg : (s.pc g).ended = true) : g ≠ i ∧ u.pc g = s.pc g := by
  have hne : g ≠ i := fun he => by simp [he, hi] at hg
  exact ⟨hne, by rw [hpc, Function.update_of_ne hne]⟩

theorem ended_goto₂ {p q : Pc ι} (hpc : s'.pc = Function.update (Function.update s.pc j q) i p)
    (hi : (s.pc i).ended = false) (hj : (s.pc j).ended = false) (hg : (s.pc g).ended = true) :
    s'.pc g = s.pc g := by
  have h1 : g ≠ i := fun he => by simp [he, hi] at hg
  have h2 : g ≠ j := fun he => by simp [he, hj] at hg
  rw [hpc, Function.update_of_ne h1, Function.update_of_ne h2]

/-- A caller that only has to return keeps its item's state, and returns it. -/
theorem Step.ended (h : Inv c s) (hs : Step c s s') (hg : (s.pc g).ended = true) :
    s'.pc g = s.pc g ∧ s'.itemState g = s.itemState g ∨
      s.pc g = .resumed ∧ s'.pc g = .done (s.itemState g) := by
  have hwait : ∀ {i x}, x ∈ (s.pc i).held → g ≠ x ∧ (s.pc x).ended = false := fun {i x} hx => by
    have hw := h.waiting_of_held hx
    exact ⟨fun he => by simp [he, hw, Pc.ended] at hg, by rw [hw]; rfl⟩
  cases hs with
  | call i hpc =>
    obtain ⟨h1, h2⟩ := ended_goto (u := s.goto i (c.kind i).entry) rfl (by rw [hpc]; rfl) hg
    exact .inl ⟨h2, Function.update_of_ne h1 ..⟩
  | impl i hpc =>
    obtain ⟨p, h1, -⟩ := s.after_stage c i
    refine .inl ⟨(ended_goto h1 (by rw [hpc]; rfl) hg).2, ?_⟩
    rcases s.after_cases c i with ⟨-, -, he⟩ | ⟨-, -, he⟩ | ⟨-, -, -, he⟩ | ⟨-, -, -, he⟩ |
      ⟨_, _, -, -, -, he⟩ | ⟨_, _, -, -, he⟩ | ⟨-, -, he⟩ | ⟨_, _, -, -, he⟩ <;>
      exact congrArg (fun s => s.itemState g) he
  | mark i j hpc =>
    exact .inl ⟨(ended_goto (u := s.goto i _) rfl (by rw [hpc]; rfl) hg).2,
      Function.update_of_ne (hwait (i := i) (by simp [hpc])).1 ..⟩
  | setState i x todo items hpc =>
    exact .inl ⟨(ended_goto (u := s.goto i _) rfl (by rw [hpc]; rfl) hg).2,
      Function.update_of_ne (hwait (i := i) (by simp [hpc])).1 ..⟩
  | switch i j hpc =>
    exact .inl ⟨ended_goto₂ rfl (by rw [hpc]; rfl) (hwait (i := i) (by simp [hpc])).2 hg, rfl⟩
  | wake i x items hpc =>
    exact .inl ⟨ended_goto₂ rfl (by rw [hpc]; rfl) (hwait (i := i) (by simp [hpc])).2 hg, rfl⟩
  | enqueue j i hpc =>
    have hf := h.fits j
    simp only [Fits, hpc] at hf
    exact .inl ⟨ended_goto₂ rfl (by rw [hpc]; rfl) (by rw [hf.1]; rfl) hg, rfl⟩
  | ret i hpc =>
    by_cases he : g = i
    · exact .inr ⟨he ▸ hpc, by simp [State.goto, he]⟩
    · exact .inl ⟨by simp [State.goto, he], rfl⟩
  | test i hpc => exact .inl ⟨(ended_goto rfl (by rw [hpc]; rfl) hg).2, rfl⟩
  | acquire i hpc => exact .inl ⟨(ended_goto rfl (by rw [hpc]; rfl) hg).2, rfl⟩
  | publish i hpc => exact .inl ⟨(ended_goto rfl (by rw [hpc]; rfl) hg).2, rfl⟩
  | copy i j hpc => exact .inl ⟨(ended_goto rfl (by rw [hpc]; rfl) hg).2, rfl⟩
  | ready i hpc => exact .inl ⟨(ended_goto rfl (by rw [hpc]; rfl) hg).2, rfl⟩
  | free i items hpc => exact .inl ⟨(ended_goto rfl (by rw [hpc]; rfl) hg).2, rfl⟩
  | enqueueList i items hpc => exact .inl ⟨(ended_goto rfl (by rw [hpc]; rfl) hg).2, rfl⟩
  | woken i hpc => exact .inl ⟨(ended_goto rfl (by rw [hpc]; rfl) hg).2, rfl⟩
  | user mem => exact .inl ⟨rfl, rfl⟩
  | reuse n => exact .inl ⟨rfl, rfl⟩

/-! ## What close and destroy take -/

/-- A critical section, as far as the blocked callers are concerned. -/
theorem State.after_hands (c : Calls ι) (s : State ι) (i : ι) (h : Inv c s) :
    ∃ p, (s.after c i).pc = Function.update s.pc i p ∧ (s.after c i).resumes = s.resumes ∧
      (s.after c i).secs = s.secs ++ [i] ∧
      ((s.after c i).taken = s.taken ∧ ((c.kind i).ends = true → p.held = []) ∨
        (s.after c i).taken = Function.update s.taken i p.held ∧
          ∀ g ∈ p.held, g ∈ s.linked ∧ (c.kind i = .close → c.kind g = .receive)) := by
  rcases s.after_cases c i with ⟨-, -, he⟩ | ⟨-, -, he⟩ | ⟨hk, -, -, he⟩ | ⟨hk, -, -, he⟩ |
    ⟨j, rest, hk, -, -, he⟩ | ⟨j, rest, hk, -, he⟩ | ⟨hk, -, he⟩ | ⟨items, rest, hk, ht, he⟩ <;>
    rw [he]
  · exact ⟨_, rfl, rfl, rfl, .inl ⟨rfl, fun _ => rfl⟩⟩
  · exact ⟨_, rfl, rfl, rfl, .inl ⟨rfl, fun _ => rfl⟩⟩
  · exact ⟨_, rfl, rfl, rfl, .inl ⟨rfl, fun _ => rfl⟩⟩
  · exact ⟨_, rfl, rfl, rfl, .inl ⟨rfl, fun _ => rfl⟩⟩
  · exact ⟨_, rfl, rfl, rfl, .inl ⟨rfl, by simp [hk, Kind.ends]⟩⟩
  · exact ⟨_, rfl, rfl, rfl, .inl ⟨rfl, by simp [hk, Kind.ends]⟩⟩
  · exact ⟨_, rfl, rfl, rfl, .inr ⟨rfl, fun g hg =>
      ⟨List.mem_append_left _ hg, fun _ => h.receivers.2 g hg⟩⟩⟩
  · refine ⟨_, rfl, rfl, rfl, .inr ⟨rfl, fun g hg => ⟨?_, by simp [hk]⟩⟩⟩
    rcases ht with ⟨-, rfl, -⟩ | ⟨-, rfl, -⟩
    · exact List.mem_append_left _ hg
    · exact List.mem_append_right _ hg

/-- **The callers close and destroy have taken.** -/
structure Wakes (c : Calls ι) (s : State ι) : Prop where
  /-- Nobody is resumed twice. -/
  once : (s.resumes.map Prod.snd).Nodup
  woken : ∀ p ∈ s.resumes, p.2 ∈ s.secs ∧ (s.pc p.2).blocked = false
  untaken : ∀ i, i ∉ s.secs → s.taken i = []
  /-- What a call took is what it has resumed, then what it still holds. -/
  taken : ∀ i, (c.kind i).ends = true →
    s.taken i = (s.resumes.filter (·.1 = i)).map Prod.snd ++ (s.pc i).held
  result : ∀ p ∈ s.resumes, (c.kind p.1).ends = true →
    s.pc p.2 = .resumed ∧ s.itemState p.2 = wakeState (c.kind p.1) ∨
      s.pc p.2 = .done (wakeState (c.kind p.1))
  came : ∀ i, ∀ g ∈ s.taken i, g ∈ s.secs ∧ (c.kind i = .close → c.kind g = .receive)

/-- A held caller has been in its section. -/
theorem Wakes.mem_secs (h : Inv c s) (hw : Wakes c s) (hg : g ∈ (s.pc i).held) : g ∈ s.secs := by
  have hf := h.fits i
  have hpaired : s.Paired i g → g ∈ s.secs := fun hp => h.mem_secs_of_matched ⟨i, hp.symm⟩
  have htaken : (c.kind i).ends = true → g ∈ s.secs := fun hk => by
    refine (hw.came i g ?_).1
    rw [hw.taken i hk]
    exact List.mem_append_right _ hg
  cases hp : s.pc i <;> simp only [Fits, hp] at hf <;>
    simp only [hp, Pc.held_eq, List.mem_singleton, List.not_mem_nil] at hg
  · exact hpaired (hg ▸ hf.1)
  · exact hpaired (hg ▸ hf.1)
  · exact hpaired (hg ▸ hf.1)
  · exact htaken (by simp [hf.1, Kind.ends])
  · exact htaken (by rcases hf.1 with hk | hk <;> simp [hk, Kind.ends])
  · exact htaken (by rcases hf.1 with hk | hk <;> simp [hk, Kind.ends])

theorem Wakes.step (h : Inv c s) (hw : Wakes c s) (hs : Step c s s') : Wakes c s' := by
  have hresult : ∀ p ∈ s.resumes, (c.kind p.1).ends = true →
      s'.pc p.2 = .resumed ∧ s'.itemState p.2 = wakeState (c.kind p.1) ∨
        s'.pc p.2 = .done (wakeState (c.kind p.1)) := fun p hp hk => by
    rcases hw.result p hp hk with ⟨h1, h2⟩ | h1
    · rcases hs.ended h (g := p.2) (by rw [h1]; rfl) with ⟨h3, h4⟩ | ⟨-, h3⟩
      · exact .inl ⟨h3.trans h1, h4.trans h2⟩
      · exact .inr (h2 ▸ h3)
    · rcases hs.ended h (g := p.2) (by rw [h1]; rfl) with ⟨h3, -⟩ | ⟨h3, -⟩
      · exact .inr (h3.trans h1)
      · rw [h1] at h3
        cases h3
  rcases hs.hands h with hc | ⟨i, g, hr⟩ | ⟨i, hin, rfl⟩
  · refine ⟨hc.resumes ▸ hw.once, fun p hp => ?_, fun k hk => ?_, fun k hk => ?_, fun p hp => ?_,
      fun k => ?_⟩
    · rw [hc.secs, hc.blocked]
      exact hw.woken p (hc.resumes ▸ hp)
    · rw [hc.taken]
      exact hw.untaken k (hc.secs ▸ hk)
    · rw [hc.taken, hc.resumes, hc.held]
      exact hw.taken k hk
    · exact hresult p (hc.resumes ▸ hp)
    · rw [hc.taken, hc.secs]
      exact hw.came k
  · -- the resumed caller was blocked, so that it had not been resumed before
    have hgi : g ∈ (s.pc i).held := by simp [hr.head]
    have hnew : ∀ p ∈ s.resumes, p.2 ≠ g := fun p hp he => by
      have := (hw.woken p hp).2
      rw [he, h.blocked_of_held hgi] at this
      cases this
    refine ⟨?_, fun p hp => ?_, fun k hk => ?_, fun k hk => ?_, fun p hp hk => ?_, fun k => ?_⟩
    · rw [hr.resumes, List.map_append]
      refine List.nodup_append.2 ⟨hw.once, by simp, fun a ha b hb => ?_⟩
      obtain ⟨p, hp, rfl⟩ := List.mem_map.1 ha
      exact fun he => hnew p hp (he.trans (List.mem_singleton.1 hb))
    · have hsec : p.2 ∈ s.secs := by
        rw [hr.resumes] at hp
        rcases List.mem_append.1 hp with hp | hp
        · exact (hw.woken p hp).1
        · rw [List.mem_singleton.1 hp]
          exact hw.mem_secs h hgi
      refine ⟨hr.secs ▸ hsec, ?_⟩
      by_contra hb
      obtain ⟨h1, h2⟩ := hr.blocked p.2 (by simpa using hb)
      rw [hr.resumes] at hp
      rcases List.mem_append.1 hp with hp | hp
      · rw [(hw.woken p hp).2] at h2
        cases h2
      · exact h1 (by rw [List.mem_singleton.1 hp])
    · rw [hr.taken]
      exact hw.untaken k (hr.secs ▸ hk)
    · rw [hr.taken, hw.taken k hk, hr.resumes]
      by_cases he : k = i
      · simp [he, hr.head]
      · simp [hr.held k he, Ne.symm he]
    · rw [hr.resumes] at hp
      rcases List.mem_append.1 hp with hp | hp
      · exact hresult p hp hk
      · obtain rfl := List.mem_singleton.1 hp
        exact .inl (hr.state hk)
    · rw [hr.taken, hr.secs]
      exact hw.came k
  · obtain ⟨p, hpc, hres, hsecs, htk⟩ := s.after_hands c i h
    have hi := h.notMem_secs hin
    have hother : ∀ k, k ≠ i → (s.after c i).taken k = s.taken k := fun k hk => by
      rcases htk with ⟨ht, -⟩ | ⟨ht, -⟩
      · rw [ht]
      · rw [ht, Function.update_of_ne hk]
    refine ⟨hres ▸ hw.once, fun q hq => ?_, fun k hk => ?_, fun k hk => ?_, fun q hq => ?_,
      fun k g hg => ?_⟩
    · obtain ⟨h1, h2⟩ := hw.woken q (hres ▸ hq)
      refine ⟨hsecs ▸ List.mem_append_left _ h1, ?_⟩
      rw [hpc, Function.update_of_ne fun (he : q.2 = i) => hi (he ▸ h1)]
      exact h2
    · rw [hsecs, List.mem_append, not_or, List.mem_singleton] at hk
      rw [hother k hk.2]
      exact hw.untaken k hk.1
    · rw [hres]
      by_cases he : k = i
      · -- the caller has resumed nobody yet
        subst he
        have hold := hw.taken k hk
        rw [hw.untaken k hi, eq_comm, List.append_eq_nil_iff] at hold
        rw [hold.1, hpc, Function.update_self, List.nil_append]
        rcases htk with ⟨ht, hp⟩ | ⟨ht, -⟩
        · rw [ht, hw.untaken k hi, hp hk]
        · rw [ht, Function.update_self]
      · rw [hother k he, hpc, Function.update_of_ne he]
        exact hw.taken k hk
    · exact hresult q (hres ▸ hq)
    · by_cases he : k = i
      · subst he
        rcases htk with ⟨ht, -⟩ | ⟨ht, hp⟩
        · rw [ht, hw.untaken k hi] at hg
          cases hg
        · rw [ht, Function.update_self] at hg
          exact ⟨hsecs ▸ List.mem_append_left _ (h.mem_secs_of_linked (hp g hg).1), (hp g hg).2⟩
      · rw [hother k he] at hg
        obtain ⟨h1, h2⟩ := hw.came k g hg
        exact ⟨hsecs ▸ List.mem_append_left _ h1, h2⟩

theorem Reached.wakes (h : Reached c s) : Wakes c s :=
  h.invariant_from (fun _ => Reached.inv)
    (by
      rintro _ ⟨mem, rfl⟩
      exact ⟨List.nodup_nil, by simp [State.start], fun _ _ => rfl,
        fun _ _ => by simp [State.start], by simp [State.start], by simp [State.start]⟩)
    fun _ _ hI hJ hs => hJ.step hI hs

/-! ## The lists after close and after destroy -/

/-- Destroy leaves nobody linked, and nobody comes after it. -/
def Emptied (s : State ι) : Prop :=
  (s.freed = true ∨ ∃ i items, s.pc i = .freeing items) → s.linked = []

theorem Emptied.after (h : Inv c s) (hc : Closing c s) (hin : s.pc i = .inside) :
    Emptied (s.after c i) := by
  intro ho
  rcases s.after_cases c i with ⟨-, -, ha⟩ | ⟨-, -, ha⟩ | ⟨-, -, -, ha⟩ | ⟨-, -, -, ha⟩ |
    ⟨_, _, -, -, -, ha⟩ | ⟨_, _, -, -, ha⟩ | ⟨-, -, ha⟩ | ⟨items, rest, -, ht, ha⟩
  all_goals
    rw [ha] at ho ⊢
  case inr.inr.inr.inr.inr.inr.inr =>
    rcases ht with ⟨hr, -, rfl⟩ | ⟨-, -, rfl⟩
    · simp [State.linked, h.either.resolve_left hr]
    · rfl
  all_goals
    -- the channel is not about to be freed, since the caller is in its section
    exact absurd hin ((hc.ended (ended_before ho rfl (goto_freeing (by simp)))).2 i)

theorem Emptied.step (h : Inv c s) (hc : Closing c s) (he : Emptied s) (hs : Step c s s') :
    Emptied s' := by
  rcases hs.impl_or with ⟨i, hin, rfl⟩ | ⟨hr, hw, -⟩
  · exact .after h hc hin
  intro ho
  rw [State.linked, hr, hw]
  rcases hs.stages h with ⟨-, -, -, hfr, -, hst⟩ | ⟨i, hwant, -, -, rfl⟩ | ⟨i, hin, rfl⟩ |
    ⟨i, j, hp, rfl⟩ | ⟨i, items, hf, rfl⟩
  · exact he (ended_before ho hfr fun k items => (stage_freeing (hst k) items).1)
  · exact he (ended_before ho rfl (goto_freeing (by simp)))
  · rw [← hr, ← hw]
    exact Emptied.after h hc hin ho
  · exact he (ended_before ho rfl copy_freeing)
  · exact he (.inr ⟨i, items, hf⟩)

/-- **The close that took effect.** -/
structure Closed (c : Calls ι) (s : State ι) : Prop where
  /-- The senders that were blocked then have been popped in their order, are still queued, or were
  taken by destroy. -/
  queue : ∀ i W n, s.closer = some (i, W, n) → s.ch.closed = true ∧ n ≤ s.pairs.length ∧
    ∃ L, W = (s.pairs.drop n).map Prod.fst ++ s.ch.witemList ++ L ∧
      ∀ g ∈ L, ∃ d, c.kind d = .destroy ∧ g ∈ s.taken d
  /-- No other close has taken anybody. -/
  sole : ∀ i, c.kind i = .close → s.taken i ≠ [] → ∃ W n, s.closer = some (i, W, n)

omit [DecidableEq ι] in
theorem Closed.opened (hc : Closed c s) (hf : s.ch.closed = false) : s.closer = none := by
  by_contra hn
  obtain ⟨⟨k, W, n⟩, hk⟩ := Option.ne_none_iff_exists'.1 hn
  simp [(hc.queue k W n hk).1] at hf

omit [DecidableEq ι] in
theorem Closed.untaken (hc : Closed c s) (hf : s.ch.closed = false) (hk : c.kind k = .close) :
    s.taken k = [] := by
  by_contra hn
  obtain ⟨W, n, he⟩ := hc.sole k hk hn
  simp [hc.opened hf] at he

/-- Destroy takes the queued senders, or there are none. -/
theorem Closed.destroy (hc : Closed c s) (hti : s.taken i = []) (hd : c.kind i = .destroy)
    {items rest : List ι} (hrest : s.ch.witemList = rest ∨ s.ch.witemList = items ∧ rest = [])
    (hs' : s' = { s.goto i (.freeing items) with
      lock := none, ch := { s.ch with ritemList := [], witemList := rest, closed := true },
      secs := s.secs ++ [i], taken := Function.update s.taken i items,
      closer := if s.ch.closed then s.closer
        else some (i, s.ch.witemList, s.pairs.length) }) : Closed c s' := by
  have hold : ∀ k, s.taken k ≠ [] → Function.update s.taken i items k = s.taken k := fun k hk =>
    Function.update_of_ne (fun (he : k = i) => hk (he ▸ hti)) ..
  obtain ⟨L', hL', hnew⟩ : ∃ L', s.ch.witemList = rest ++ L' ∧
      ∀ g ∈ L', ∃ d, c.kind d = .destroy ∧ g ∈ Function.update s.taken i items d := by
    rcases hrest with rfl | ⟨rfl, rfl⟩
    · exact ⟨[], by simp, by simp⟩
    · exact ⟨_, rfl, fun g hg => ⟨i, hd, by rwa [Function.update_self]⟩⟩
  subst hs'
  refine ⟨fun k W n hk => ?_, fun k hk hn => ?_⟩
  · cases hf : s.ch.closed with
    | true =>
      simp only [hf, if_true] at hk
      obtain ⟨-, h2, L, rfl, hL⟩ := hc.queue k W n hk
      refine ⟨rfl, h2, L' ++ L, by simp [hL', State.goto], fun g hg => ?_⟩
      rcases List.mem_append.1 hg with hg | hg
      · exact hnew g hg
      · obtain ⟨d, hkd, hgd⟩ := hL g hg
        rw [← hold d (List.ne_nil_of_mem hgd)] at hgd
        exact ⟨d, hkd, hgd⟩
    | false =>
      obtain ⟨rfl, rfl, rfl⟩ : i = k ∧ s.ch.witemList = W ∧ s.pairs.length = n := by
        simpa [hf] using hk
      exact ⟨rfl, Nat.le_refl _, L', by simp [hL', State.goto], hnew⟩
  · have hki : k ≠ i := fun he => by simp [he, hd] at hk
    simp only [Function.update_of_ne hki] at hn
    cases hf : s.ch.closed with
    | true =>
      simp only [if_true]
      exact hc.sole k hk hn
    | false => exact absurd (hc.untaken hf hk) hn

theorem Closed.step (h : Inv c s) (hw : Wakes c s) (hc : Closed c s) (hs : Step c s s') :
    Closed c s' := by
  rcases hs.impl_or with ⟨i, hin, rfl⟩ | ⟨-, hwl, hcl, hp, htk, hco⟩
  · have hti := hw.untaken i (h.notMem_secs hin)
    rcases s.after_cases c i with ⟨-, -, ha⟩ | ⟨-, -, ha⟩ | ⟨-, hf, -, ha⟩ | ⟨-, hf, -, ha⟩ |
      ⟨j, rest, -, hf, -, ha⟩ | ⟨j, rest, -, hwl, ha⟩ | ⟨-, hf, ha⟩ | ⟨items, rest, hd, ht, ha⟩
    case inr.inr.inr.inr.inr.inr.inr =>
      refine hc.destroy hti hd ?_ ha
      rcases ht with ⟨hr, -, rfl⟩ | ⟨-, rfl, rfl⟩
      · exact .inl rfl
      · exact .inr ⟨rfl, rfl⟩
    all_goals
      rw [ha]
      refine ⟨fun k W n hk => ?_, fun k hk hn => ?_⟩
    · exact hc.queue k W n hk
    · exact hc.sole k hk hn
    · exact hc.queue k W n hk
    · exact hc.sole k hk hn
    · exact absurd (hk.symm.trans (hc.opened hf)) (by simp)
    · exact absurd (hc.untaken hf hk) hn
    · exact absurd (hk.symm.trans (hc.opened hf)) (by simp)
    · exact absurd (hc.untaken hf hk) hn
    · exact absurd (hk.symm.trans (hc.opened hf)) (by simp)
    · exact absurd (hc.untaken hf hk) hn
    · -- a receiver pops the first of the queued senders
      obtain ⟨h1, h2, L, rfl, hL⟩ := hc.queue k W n hk
      refine ⟨h1, by simp; omega, L, ?_, hL⟩
      simp [List.drop_append_of_le_length h2, hwl]
    · exact hc.sole k hk hn
    · obtain ⟨rfl, rfl, rfl⟩ : i = k ∧ s.ch.witemList = W ∧ s.pairs.length = n := by simpa using hk
      exact ⟨rfl, Nat.le_refl _, [], by simp [State.goto], by simp⟩
    · by_cases he : k = i
      · exact ⟨_, _, by rw [he]⟩
      · simp only [Function.update_of_ne he] at hn
        exact absurd (hc.untaken hf hk) hn
  · refine ⟨fun k W n hk => ?_, fun k hk hn => ?_⟩
    · rw [hcl, hp, hwl, htk]
      exact hc.queue k W n (hco ▸ hk)
    · rw [hco]
      exact hc.sole k hk (htk ▸ hn)

theorem Reached.closed (h : Reached c s) : Closed c s :=
  h.invariant_from (I := fun s => Inv c s ∧ Wakes c s)
    (fun _ (hr : Reached c _) => ⟨hr.inv, hr.wakes⟩)
    (by rintro _ ⟨mem, rfl⟩; exact ⟨by simp [State.start], by simp [State.start]⟩)
    fun _ _ hI hJ hs => hJ.step hI.1 hI.2 hs

/-- The call `i` goes on alone, and resumes everybody in its hands, in order. -/
structure Finishes (c : Calls ι) (s : State ι) (i : ι) (s' : State ι) : Prop where
  run : Relation.ReflTransGen (Step c) s s'
  held : (s'.pc i).held = []
  resumes : s'.resumes = s.resumes ++ (s.pc i).held.map fun g => (i, g)
  others : ∀ k, k ≠ i → k ∉ (s.pc i).held → s'.pc k = s.pc k

omit [DecidableEq ι] in
theorem notMem_of_append {l l' l'' : List ι} (h : l = l' ++ l'') (hk : k ∉ l) : k ∉ l'' := by
  rw [h] at hk
  exact fun hm => hk (List.mem_append_right _ hm)

theorem Finishes.after_step {u : State ι} (h : Finishes c u i s') (hs : Step c s u) {l : List ι}
    (hheld : (s.pc i).held = l ++ (u.pc i).held)
    (hresumes : u.resumes = s.resumes ++ l.map fun g => (i, g))
    (hothers : ∀ k, k ≠ i → k ∉ (s.pc i).held → u.pc k = s.pc k) : Finishes c s i s' where
  run := .head hs h.run
  held := h.held
  resumes := by rw [h.resumes, hresumes, hheld, List.map_append, List.append_assoc]
  others k hk hkh := (h.others k hk (notMem_of_append hheld hkh)).trans (hothers k hk hkh)

/-- A step of `i` that resumes nobody. -/
theorem Finishes.goto {u : State ι} {p : Pc ι} (h : Finishes c u i s') (hs : Step c s u)
    (hpc : u.pc = Function.update s.pc i p) (hheld : (s.pc i).held = p.held)
    (hresumes : u.resumes = s.resumes) : Finishes c s i s' := by
  refine h.after_step hs (l := []) ?_ ?_ fun k hk _ => ?_
  · rw [hpc, Function.update_self, hheld]
    rfl
  · rw [hresumes, List.map_nil, List.append_nil]
  · rw [hpc, Function.update_of_ne hk]

theorem finishes_of_empty (h : (s.pc i).held = []) : Finishes c s i s where
  run := .refl
  held := h
  resumes := by rw [h, List.map_nil, List.append_nil]
  others _ _ _ := rfl

theorem exists_finishes_waking {items : List ι} (h : s.pc i = .waking items) :
    ∃ s', Finishes c s i s' := by
  induction items generalizing s with
  | nil => exact ⟨s, finishes_of_empty (by rw [h]; rfl)⟩
  | cons g items ih =>
    have hs := Step.wake (c := c) i g items h
    generalize hu : ({ (s.goto g .resumed).goto i (.waking items) with
      resumes := s.resumes ++ [(i, g)] } : State ι) = u at hs
    have hpc : u.pc = Function.update (Function.update s.pc g .resumed) i (.waking items) := by
      rw [← hu]
      rfl
    obtain ⟨s', h'⟩ := ih (s := u) (by rw [hpc, Function.update_self])
    refine ⟨s', h'.after_step hs (l := [g]) ?_ ?_ fun k hk hkh => ?_⟩
    · rw [h, hpc, Function.update_self]
      rfl
    · rw [← hu]
      rfl
    · have hkg : k ≠ g := by
        intro he
        rw [h, he] at hkh
        exact hkh List.mem_cons_self
      rw [hpc, Function.update_of_ne hk, Function.update_of_ne hkg]

theorem exists_finishes_marking {todo items : List ι} (h : s.pc i = .marking todo items) :
    ∃ s', Finishes c s i s' := by
  induction todo generalizing s items with
  | nil =>
    obtain ⟨s', h'⟩ := exists_finishes_waking (c := c) (s := s.goto i (.waking items))
      (Function.update_self ..)
    exact ⟨s', h'.goto (.enqueueList i items h) rfl (by rw [h]; simp) rfl⟩
  | cons g todo ih =>
    have hpc : ((s.goto i (.marking todo (items ++ [g]))).setItem g (wakeState (c.kind i))).pc i =
        .marking todo (items ++ [g]) := Function.update_self ..
    obtain ⟨s', h'⟩ := ih hpc
    exact ⟨s', h'.goto (.setState i g todo items h) rfl (by rw [h]; simp) rfl⟩

/-- **No call is stuck with callers in its hands.** -/
theorem exists_finishes (c : Calls ι) (s : State ι) (i : ι) : ∃ s', Finishes c s i s' := by
  have hmarked : ∀ {s : State ι} {j}, s.pc i = .marked j → ∃ s', Finishes c s i s' := by
    intro s j h
    have hs := Step.switch (c := c) i j h
    refine ⟨_, (finishes_of_empty ?_).after_step hs (l := [j]) ?_ rfl fun k hk hkh => ?_⟩
    · simp [State.goto]
    · simp [State.goto, h]
    · have hkj : k ≠ j := by
        intro he
        rw [h, he] at hkh
        exact hkh List.mem_cons_self
      simp [State.goto, hk, hkj]
  have hcopied : ∀ {s : State ι} {j}, s.pc i = .copied j → ∃ s', Finishes c s i s' := by
    intro s j h
    obtain ⟨s', h'⟩ := hmarked (s := (s.goto i (.marked j)).setItem j success) (j := j)
      (Function.update_self ..)
    exact ⟨s', h'.goto (.mark i j h) rfl (by rw [h]; simp) rfl⟩
  cases h : s.pc i with
  | popped j =>
    obtain ⟨s', h'⟩ := hcopied (s := s.copy c i j) (j := j) (Function.update_self ..)
    exact ⟨s', h'.goto (.copy i j h) rfl (by rw [h]; simp) rfl⟩
  | copied j => exact hcopied h
  | marked j => exact hmarked h
  | freeing items =>
    obtain ⟨s', h'⟩ := exists_finishes_marking (c := c) (s := s.free i items)
      (Function.update_self ..)
    exact ⟨s', h'.goto (.free i items h) rfl (by rw [h]; simp) rfl⟩
  | marking todo items => exact exists_finishes_marking h
  | waking items => exact exists_finishes_waking h
  | _ => exact ⟨s, finishes_of_empty (by rw [h]; rfl)⟩

/-! ## Shutdown -/

/-- Whom close or destroy has taken returns with the state its kind of call writes. -/
theorem Reached.result (h : Reached c s) {r : Int} (hk : (c.kind i).ends = true)
    (hg : g ∈ s.taken i) (hd : s.pc g = .done r) : r = wakeState (c.kind i) := by
  rw [h.wakes.taken i hk] at hg
  rcases List.mem_append.1 hg with hg | hg
  · obtain ⟨p, hp, rfl⟩ := List.mem_map.1 hg
    obtain ⟨hpr, hpi⟩ := List.mem_filter.1 hp
    obtain rfl : p.1 = i := by simpa using hpi
    rcases h.wakes.result p hpr hk with ⟨h1, -⟩ | h1
    · simp [h1] at hd
    · exact Pc.done.inj (hd.symm.trans h1)
  · simp [h.inv.waiting_of_held hg] at hd

theorem Step.pairs_prefix (hs : Step c s s') : s.pairs <+: s'.pairs := by
  rcases hs.impl_or with ⟨i, -, rfl⟩ | ⟨-, -, -, hp, -⟩
  · obtain ⟨p, -, -, -, -, -, -, -, ⟨j, -, hp⟩ | ⟨-, hp⟩⟩ := s.after_stage c i
    · exact hp ▸ List.prefix_append _ _
    · exact hp ▸ List.prefix_refl _
  · exact hp ▸ List.prefix_refl _

/-- Pairs stay, and so do results. -/
theorem Reached.kept (h : Reached c s) (hs : Relation.ReflTransGen (Step c) s s') :
    s.pairs <+: s'.pairs ∧ ∀ g r, s.pc g = .done r → s'.pc g = .done r := by
  induction hs with
  | refl => exact ⟨List.prefix_refl _, fun _ _ => id⟩
  | @tail u v hsu hst ih =>
    refine ⟨ih.1.trans hst.pairs_prefix, fun g r hg => ?_⟩
    have hu := ih.2 g r hg
    rcases hst.ended (Reached.inv (h.run hsu)) (g := g) (by rw [hu]; rfl) with ⟨h1, -⟩ | ⟨h1, -⟩
    · exact h1.trans hu
    · rw [hu] at h1
      cases h1

/-- Two receives, a send of one byte, close and destroy. -/
def closing : Calls Nat where
  kind i :=
    if i = 1 then .send else if i = 2 then .close else if i = 3 then .destroy else .receive
  data i := if i = 1 then 200 else 100
  itemSize := 1

end Channel
