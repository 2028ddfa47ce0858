import FjxFiber.Channel.Shutdown

/-!
# A channel with one sender and one receiver

First, any channel that is only sent to and received from (`Plain`): nobody closes it, every call
that returns has succeeded (`Open`), every step of a call brings it nearer to its return
(`Internal.rank`), and the calls that cannot move wait in one of the two lists (`stuck`).

Then, such a channel with one fiber at each side, so that the calls of a side follow one another
(`InTurn`): the `n`-th send is paired with the `n`-th receive, and the transfers are made in this
order (`Turns`). A client of the channel has to know no more than `Turns.apart` and
`Internal.transfer` about it.
-/

set_option autoImplicit false

namespace Channel

open Lib

/-! ## Channels that are not closed -/

section
variable {ι : Type*}

/-- The calls are sends and receives. -/
def Plain (c : Calls ι) : Prop := ∀ i, c.kind i = .send ∨ c.kind i = .receive

/-- Nobody has closed the channel, or was told so. -/
structure Open (s : State ι) : Prop where
  closed : s.ch.closed = false
  closing : s.closing = false
  freed : s.freed = false
  item : ∀ i, s.itemState i = itemInit ∨ s.itemState i = success
  done : ∀ i, s.pc i ≠ .finished ∧ ∀ r, s.pc i = .done r → r = success

/-- How near a call is to its return. -/
def Pc.rank : Pc ι → Nat
  | .fresh => 0
  | .test => 1
  | .want => 2
  | .inside => 3
  | .publishing | .popped _ => 4
  | .waiting | .copied _ => 5
  | .marked _ | .enqueueing _ => 6
  | .switched | .resumed => 7
  | .ready => 8
  | _ => 9

theorem Pc.rank_le (p : Pc ι) : p.rank ≤ 9 := by
  cases p <;> simp [rank]

theorem Pc.rank_pos {p : Pc ι} (h : p ≠ .fresh) : 0 < p.rank := by
  cases p with
  | fresh => exact absurd rfl h
  | _ => simp [rank]

/-- The call has been made and has not returned. -/
def Pc.pending (p : Pc ι) : Prop := p ≠ .fresh ∧ ∀ r, p ≠ .done r

variable [DecidableEq ι] {c : Calls ι} {s s' : State ι} {i j k : ι}

/-- A step of a call that has been made. -/
def Internal (c : Calls ι) (s s' : State ι) : Prop :=
  Step c s s' ∧ s'.pc ≠ s.pc ∧ ∀ i, s.pc i = .fresh → s'.pc i = .fresh

omit [DecidableEq ι] in
theorem Plain.not_ending (hc : Plain c) : c.kind i ≠ .close ∧ c.kind i ≠ .destroy := by
  rcases hc i with h | h <;> simp [h]

/-- No call of a plain channel holds the items of a shutdown. -/
theorem Inv.not_ending (h : Inv c s) (hc : Plain c) (i : ι) :
    (∀ l, s.pc i ≠ .freeing l) ∧ (∀ l l', s.pc i ≠ .marking l l') ∧ ∀ l, s.pc i ≠ .waking l := by
  have hf := h.fits i
  have hn := hc.not_ending (i := i)
  unfold Fits at hf
  refine ⟨fun l hl => ?_, fun l l' hl => ?_, fun l hl => ?_⟩ <;> rw [hl] at hf
  · exact hn.2 hf.1
  · rcases hf.1 with hk | hk
    · exact hn.1 hk
    · exact hn.2 hk
  · rcases hf.1 with hk | hk
    · exact hn.1 hk
    · exact hn.2 hk

theorem Open.goto (h : Open s) {p : Pc ι} (hch : s'.ch.closed = s.ch.closed)
    (hcl : s'.closing = s.closing) (hfr : s'.freed = s.freed) (hit : s'.itemState = s.itemState)
    (hpc : s'.pc = Function.update s.pc i p) (hp : p ≠ .finished ∧ ∀ r, p = .done r → r = success) :
    Open s' := by
  refine ⟨hch.trans h.closed, hcl.trans h.closing, hfr.trans h.freed, fun k => ?_, fun k => ?_⟩
  · rw [hit]
    exact h.item k
  · rw [hpc, Function.update_apply]
    split
    · exact hp
    · exact h.done k

theorem Open.setItem (h : Open s) {v : Int} (hv : v = itemInit ∨ v = success) :
    Open (s.setItem i v) := by
  refine ⟨h.closed, h.closing, h.freed, fun k => ?_, h.done⟩
  by_cases hk : k = i
  · simpa [State.setItem, hk] using hv
  · simpa [State.setItem, hk] using h.item k

/-- A critical section on an open channel links the caller or pops a peer. -/
theorem Open.impl (h : Open s) (hc : Plain c) : Open (s.after c i) := by
  have hn := hc.not_ending (i := i)
  rcases s.after_cases c i with ⟨-, hcl, -⟩ | ⟨hk, -⟩ | ⟨-, -, -, he⟩ | ⟨-, -, -, he⟩ |
    ⟨j, rest, -, -, -, he⟩ | ⟨j, rest, -, -, he⟩ | ⟨hk, -⟩ | ⟨items, rest, hk, -⟩
  · simp [h.closed] at hcl
  · exact absurd hk hn.1
  · rw [he]
    exact h.goto rfl rfl rfl rfl (i := i) rfl (by simp)
  · rw [he]
    exact h.goto rfl rfl rfl rfl (i := i) rfl (by simp)
  · rw [he]
    exact h.goto rfl rfl rfl rfl (i := i) rfl (by simp)
  · rw [he]
    exact h.goto rfl rfl rfl rfl (i := i) rfl (by simp)
  · exact absurd hk hn.1
  · exact absurd hk hn.2

theorem Open.step (h : Inv c s) (hc : Plain c) (ho : Open s) (hs : Step c s s') : Open s' := by
  have hn := h.not_ending hc
  cases hs with
  | call i hpc =>
    have h1 : Open (s.goto i (c.kind i).entry) := by
      refine ho.goto rfl rfl rfl rfl (i := i) rfl ?_
      rcases hc i with hk | hk <;> simp [hk, Kind.entry]
    exact h1.setItem (.inl rfl)
  | test i hpc =>
    refine ho.goto rfl rfl rfl rfl (i := i) rfl ?_
    simp [ho.closed]
  | acquire i hpc =>
    refine ho.goto rfl ?_ rfl rfl (i := i) rfl (by simp)
    simp [(hc.not_ending (i := i)).2, ho.closing]
  | impl i hpc => exact ho.impl hc
  | publish i hpc => exact ho.goto rfl rfl rfl rfl (i := i) rfl (by simp)
  | copy i j hpc => exact ho.goto rfl rfl rfl rfl (i := i) rfl (by simp)
  | mark i j hpc =>
    have h1 : Open (s.goto i (.marked j)) := ho.goto rfl rfl rfl rfl (i := i) rfl (by simp)
    exact h1.setItem (.inr rfl)
  | switch i j hpc =>
    have h1 : Open (s.goto j (.enqueueing i)) := ho.goto rfl rfl rfl rfl (i := j) rfl (by simp)
    exact h1.goto rfl rfl rfl rfl (i := i) rfl (by simp)
  | enqueue j i hpc =>
    have h1 : Open (s.goto i .ready) := ho.goto rfl rfl rfl rfl (i := i) rfl (by simp)
    exact h1.goto rfl rfl rfl rfl (i := j) rfl (by simp)
  | ready i hpc => exact ho.goto rfl rfl rfl rfl (i := i) rfl (by simp)
  | ret i hpc =>
    refine ho.goto rfl rfl rfl rfl (i := i) rfl ⟨by simp, fun r hr => ?_⟩
    obtain rfl := Pc.done.inj hr
    -- a caller that was resumed has been served, or was told of a shutdown
    have hf := h.fits i
    simp only [Fits, hpc] at hf
    rcases hf with hf | ⟨hf, -⟩
    · exact hf.1
    · rcases ho.item i with hi | hi <;> rw [hi] at hf <;>
        simp [itemInit, success, Channel.closed, destroyed] at hf
  | free i items hpc => exact absurd hpc ((hn i).1 _)
  | setState i g todo items hpc => exact absurd hpc ((hn i).2.1 _ _)
  | enqueueList i items hpc => exact absurd hpc ((hn i).2.1 _ _)
  | wake i g items hpc => exact absurd hpc ((hn i).2.2 _)
  | woken i hpc => exact absurd hpc ((hn i).2.2 _)
  | user mem => exact ⟨ho.closed, ho.closing, ho.freed, ho.item, ho.done⟩
  | reuse n hf => simp [ho.freed] at hf

theorem Reached.opened (h : Reached c s) (hc : Plain c) : Open s :=
  h.invariant_from (fun _ => Reached.inv)
    (by
      rintro _ ⟨mem, rfl⟩
      exact ⟨rfl, rfl, rfl, fun _ => .inl rfl, fun _ => by simp [State.start]⟩)
    fun _ _ hI hJ hs => hJ.step hI hc hs

/-- Whom a caller switched to has still to enqueue it. -/
theorem Reached.switched (h : Reached c s) :
    ∀ i, s.pc i = .switched → ∃ j, s.pc j = .enqueueing i := by
  refine h.invariant_from (I := Inv c) (J := fun s => ∀ i, s.pc i = .switched →
    ∃ j, s.pc j = .enqueueing i) (fun _ => Reached.inv) ?_ ?_
  · rintro _ ⟨mem, rfl⟩ i hi
    cases hi
  · intro s s' hI hJ hs k hk
    -- a step of one call that neither switches nor enqueues
    have hgoto : ∀ {i : ι} {p : Pc ι}, s'.pc = Function.update s.pc i p → p ≠ .switched →
        (∀ g, s.pc i ≠ .enqueueing g) → ∃ j, s'.pc j = .enqueueing k := by
      intro i p hpc hp hi
      have hne : k ≠ i := by
        rintro rfl
        rw [hpc, Function.update_self] at hk
        exact hp hk
      rw [hpc, Function.update_of_ne hne] at hk
      obtain ⟨j, hj⟩ := hJ k hk
      refine ⟨j, ?_⟩
      rw [hpc, Function.update_of_ne, hj]
      rintro rfl
      exact hi k hj
    cases hs with
    | call i hpc =>
      exact hgoto (i := i) rfl (by cases c.kind i <;> simp [Kind.entry]) (by simp [hpc])
    | test i hpc =>
      exact hgoto (i := i) rfl (by cases s.ch.closed <;> cases c.kind i <;> simp [Kind.refused])
        (by simp [hpc])
    | impl i hpc =>
      rcases s.after_cases c i with ⟨-, -, he⟩ | ⟨-, -, he⟩ | ⟨-, -, -, he⟩ | ⟨-, -, -, he⟩ |
        ⟨_, _, -, -, -, he⟩ | ⟨_, _, -, -, he⟩ | ⟨-, -, he⟩ | ⟨_, _, -, -, he⟩ <;>
        exact hgoto (i := i) (congrArg State.pc he) (by simp) (by simp [hpc])
    | acquire i hpc => exact hgoto (i := i) rfl (by simp) (by simp [hpc])
    | publish i hpc => exact hgoto (i := i) rfl (by simp) (by simp [hpc])
    | copy i j hpc => exact hgoto (i := i) rfl (by simp) (by simp [hpc])
    | mark i j hpc => exact hgoto (i := i) rfl (by simp) (by simp [hpc])
    | ready i hpc => exact hgoto (i := i) rfl (by simp) (by simp [hpc])
    | ret i hpc => exact hgoto (i := i) rfl (by simp) (by simp [hpc])
    | free i items hpc => exact hgoto (i := i) rfl (by simp) (by simp [hpc])
    | setState i g todo items hpc => exact hgoto (i := i) rfl (by simp) (by simp [hpc])
    | enqueueList i items hpc => exact hgoto (i := i) rfl (by simp) (by simp [hpc])
    | woken i hpc => exact hgoto (i := i) rfl (by simp) (by simp [hpc])
    | user mem => exact hJ k hk
    | reuse n hf => exact hJ k hk
    | switch i j hpc =>
      have hjw := hI.waiting_of_held (g := j) (i := i) (by simp [hpc])
      have hne : j ≠ i := fun he => by simp [he, hpc] at hjw
      simp only [State.goto] at hk ⊢
      by_cases hki : k = i
      · exact ⟨j, by rw [Function.update_of_ne hne, Function.update_self, hki]⟩
      rw [Function.update_of_ne hki] at hk
      by_cases hkj : k = j
      · simp [hkj] at hk
      rw [Function.update_of_ne hkj] at hk
      obtain ⟨l, hl⟩ := hJ k hk
      refine ⟨l, ?_⟩
      rw [Function.update_of_ne (by rintro rfl; simp [hpc] at hl),
        Function.update_of_ne (by rintro rfl; simp [hjw] at hl), hl]
    | enqueue j i hpc =>
      simp only [State.goto] at hk ⊢
      by_cases hkj : k = j
      · simp [hkj] at hk
      rw [Function.update_of_ne hkj] at hk
      by_cases hki : k = i
      · simp [hki] at hk
      rw [Function.update_of_ne hki] at hk
      obtain ⟨l, hl⟩ := hJ k hk
      have hf := hI.fits j
      simp only [Fits, hpc] at hf
      refine ⟨l, ?_⟩
      have hlj : l ≠ j := by
        rintro rfl
        rw [hpc] at hl
        exact hki (Pc.enqueueing.inj hl).symm
      rw [Function.update_of_ne hlj, Function.update_of_ne (by rintro rfl; simp [hf.1] at hl), hl]
    | wake i g items hpc =>
      have hgw := hI.waiting_of_held (g := g) (i := i) (by simp [hpc])
      simp only [State.goto] at hk ⊢
      by_cases hki : k = i
      · simp [hki] at hk
      rw [Function.update_of_ne hki] at hk
      by_cases hkg : k = g
      · simp [hkg] at hk
      rw [Function.update_of_ne hkg] at hk
      obtain ⟨l, hl⟩ := hJ k hk
      refine ⟨l, ?_⟩
      rw [Function.update_of_ne (by rintro rfl; simp [hpc] at hl),
        Function.update_of_ne (by rintro rfl; simp [hgw] at hl), hl]

/-! ## Steps towards the return -/

/-- One call has moved on. -/
theorem rank_goto {p : Pc ι} (hpc : s'.pc = Function.update s.pc i p)
    (hp : (s.pc i).rank < p.rank) :
    (∀ k, (s.pc k).rank ≤ (s'.pc k).rank) ∧ ∃ k, (s.pc k).rank < (s'.pc k).rank := by
  refine ⟨fun k => ?_, i, by rw [hpc, Function.update_self]; exact hp⟩
  by_cases hk : k = i
  · rw [hpc, hk, Function.update_self]
    omega
  · exact Nat.le_of_eq (by rw [hpc, Function.update_of_ne hk])

/-- Two calls have moved on. -/
theorem rank_goto₂ {p q : Pc ι} (hpc : s'.pc = Function.update (Function.update s.pc j q) i p)
    (hp : (s.pc i).rank < p.rank) (hq : (s.pc j).rank < q.rank) :
    (∀ k, (s.pc k).rank ≤ (s'.pc k).rank) ∧ ∃ k, (s.pc k).rank < (s'.pc k).rank := by
  refine ⟨fun k => ?_, i, by rw [hpc, Function.update_self]; exact hp⟩
  rw [hpc]
  by_cases hi : k = i
  · rw [hi, Function.update_self]
    omega
  rw [Function.update_of_ne hi]
  by_cases hj : k = j
  · rw [hj, Function.update_self]
    omega
  · exact Nat.le_of_eq (by rw [Function.update_of_ne hj])

/-- **Every step of a call brings it nearer to its return**, and the call that it works with, and
takes no other call back. -/
theorem Internal.rank (h : Inv c s) (hc : Plain c) (hs : Internal c s s') :
    (∀ k, (s.pc k).rank ≤ (s'.pc k).rank) ∧ ∃ k, (s.pc k).rank < (s'.pc k).rank := by
  obtain ⟨hs, hpc', hfresh⟩ := hs
  have hn := h.not_ending hc
  cases hs with
  | call i hpc =>
    have hi := hfresh i hpc
    rcases hc i with hk | hk <;>
      simp [State.setItem, State.goto, hk, Kind.entry] at hi
  | test i hpc =>
    refine rank_goto (i := i) rfl ?_
    rw [hpc]
    rcases hc i with hk | hk <;> cases s.ch.closed <;> simp [hk, Kind.refused, Pc.rank]
  | acquire i hpc => exact rank_goto (i := i) rfl (by simp [hpc, Pc.rank])
  | impl i hpc =>
    rcases s.after_cases c i with ⟨-, -, he⟩ | ⟨-, -, he⟩ | ⟨-, -, -, he⟩ | ⟨-, -, -, he⟩ |
      ⟨_, _, -, -, -, he⟩ | ⟨_, _, -, -, he⟩ | ⟨-, -, he⟩ | ⟨_, _, -, -, he⟩ <;>
      exact rank_goto (i := i) (congrArg State.pc he) (by simp [hpc, Pc.rank])
  | publish i hpc => exact rank_goto (i := i) rfl (by simp [hpc, Pc.rank])
  | copy i j hpc => exact rank_goto (i := i) rfl (by simp [hpc, Pc.rank])
  | mark i j hpc => exact rank_goto (i := i) rfl (by simp [hpc, Pc.rank])
  | switch i j hpc =>
    have hj := h.waiting_of_held (g := j) (i := i) (by simp [hpc])
    exact rank_goto₂ rfl (by simp [hpc, Pc.rank]) (by simp [hj, Pc.rank])
  | enqueue j i hpc =>
    have hf := h.fits j
    simp only [Fits, hpc] at hf
    exact rank_goto₂ rfl (by simp [hpc, Pc.rank]) (by simp [hf.1, Pc.rank])
  | ready i hpc => exact rank_goto (i := i) rfl (by simp [hpc, Pc.rank])
  | ret i hpc => exact rank_goto (i := i) rfl (by simp [hpc, Pc.rank])
  | free i items hpc => exact absurd hpc ((hn i).1 _)
  | setState i g todo items hpc => exact absurd hpc ((hn i).2.1 _ _)
  | enqueueList i items hpc => exact absurd hpc ((hn i).2.1 _ _)
  | wake i g items hpc => exact absurd hpc ((hn i).2.2 _)
  | woken i hpc => exact absurd hpc ((hn i).2.2 _)
  | user mem => exact absurd rfl hpc'
  | reuse n hf => exact absurd rfl hpc'

theorem Internal.of_goto {p : Pc ι} (hs : Step c s s') (hpc : s'.pc = Function.update s.pc i p)
    (hi : s.pc i ≠ .fresh) (hp : p ≠ s.pc i) : Internal c s s' := by
  refine ⟨hs, fun he => hp ?_, fun k hk => ?_⟩
  · rw [← he, hpc, Function.update_self]
  · rw [hpc, Function.update_of_ne (by rintro rfl; exact hi hk), hk]

/-- **What a call waits for.** When no step of a call is possible, every call that has been made
has returned, or waits in one of the two lists. -/
theorem stuck (h : Reached c s) (hc : Plain c) (hs : ∀ s', ¬ Internal c s s') (i : ι) :
    s.pc i = .fresh ∨ (∃ r, s.pc i = .done r) ∨ i ∈ s.linked := by
  have hI := h.inv
  have ho := h.opened hc
  have hn := hI.not_ending hc
  have hstep : ∀ {j : ι} {p : Pc ι} {s' : State ι}, Step c s s' →
      s'.pc = Function.update s.pc j p → s.pc j ≠ .fresh → p ≠ s.pc j → False :=
    fun h1 h2 h3 h4 => hs _ (.of_goto h1 h2 h3 h4)
  -- who is in a section goes on
  have hinside : ∀ j, s.pc j ≠ .inside := fun j hj => by
    obtain ⟨p, hp, hne, -⟩ := s.after_stage c j
    exact hstep (.impl j hj) hp (by simp [hj]) (by rw [hj]; exact hne)
  have hpublishing : ∀ j, s.pc j ≠ .publishing := fun j hj =>
    hstep (j := j) (.publish j hj) rfl (by simp [hj]) (by simp [hj])
  have hpopped : ∀ j g, s.pc j ≠ .popped g := fun j g hj =>
    hstep (j := j) (.copy j g hj) rfl (by simp [hj]) (by simp [hj])
  have hcopied : ∀ j g, s.pc j ≠ .copied g := fun j g hj =>
    hstep (j := j) (.mark j g hj) rfl (by simp [hj]) (by simp [hj])
  have hmarked : ∀ j g, s.pc j ≠ .marked g := fun j g hj => by
    have hg := hI.waiting_of_held (g := g) (i := j) (by simp [hj])
    refine hs _ ⟨.switch j g hj, fun he => ?_, fun k hk => ?_⟩
    · have := congrFun he j
      simp [State.goto, hj] at this
    · simp only [State.goto]
      rw [Function.update_of_ne (by rintro rfl; simp [hj] at hk),
        Function.update_of_ne (by rintro rfl; simp [hg] at hk), hk]
  have henq : ∀ j g, s.pc j ≠ .enqueueing g := fun j g hj => by
    have hf := hI.fits j
    simp only [Fits, hj] at hf
    refine hs _ ⟨.enqueue j g hj, fun he => ?_, fun k hk => ?_⟩
    · have := congrFun he j
      simp [State.goto, hj] at this
    · simp only [State.goto]
      rw [Function.update_of_ne (by rintro rfl; simp [hj] at hk),
        Function.update_of_ne (by rintro rfl; simp [hf.1] at hk), hk]
  cases hi : s.pc i with
  | fresh => exact .inl rfl
  | done r => exact .inr (.inl ⟨r, rfl⟩)
  | finished => exact absurd hi (ho.done i).1
  | test =>
    refine (hstep (j := i) (.test i hi ho.closing) rfl (by simp [hi]) ?_).elim
    rw [hi, ho.closed]
    simp
  | want =>
    cases hl : s.lock with
    | none =>
      exact (hstep (j := i) (.acquire i hi hl ho.closing) rfl (by simp [hi]) (by simp [hi])).elim
    | some j =>
      have hj := (hI.lock j).1 hl
      cases hjp : s.pc j with
      | inside => exact absurd hjp (hinside j)
      | publishing => exact absurd hjp (hpublishing j)
      | _ => simp [hjp] at hj
  | inside => exact absurd hi (hinside i)
  | publishing => exact absurd hi (hpublishing i)
  | waiting =>
    obtain ⟨q, hq⟩ := hI.placed.exists_place (a := i) (by simp [hi])
    cases q with
    | none => exact .inr (.inr hq)
    | some k =>
      have hq : i ∈ (s.pc k).held := hq
      cases hk : s.pc k with
      | popped g => exact absurd hk (hpopped k g)
      | copied g => exact absurd hk (hcopied k g)
      | marked g => exact absurd hk (hmarked k g)
      | freeing l => exact absurd hk ((hn k).1 l)
      | marking l l' => exact absurd hk ((hn k).2.1 l l')
      | waking l => exact absurd hk ((hn k).2.2 l)
      | _ => simp [hk] at hq
  | popped g => exact absurd hi (hpopped i g)
  | copied g => exact absurd hi (hcopied i g)
  | marked g => exact absurd hi (hmarked i g)
  | switched =>
    obtain ⟨j, hj⟩ := h.switched i hi
    exact absurd hj (henq j i)
  | enqueueing g => exact absurd hi (henq i g)
  | resumed =>
    exact (hstep (j := i) (.ret i hi) rfl (by simp [hi]) (by simp [hi])).elim
  | ready => exact (hstep (j := i) (.ready i hi) rfl (by simp [hi]) (by simp [hi])).elim
  | freeing l => exact absurd hi ((hn i).1 l)
  | marking l l' => exact absurd hi ((hn i).2.1 l l')
  | waking l => exact absurd hi ((hn i).2.2 l)

/-- **A send and a receive that have both been made do not wait for each other.** -/
theorem exists_internal (h : Reached c s) (hc : Plain c) (hi : (s.pc i).pending)
    (hj : (s.pc j).pending) (hki : c.kind i = .send) (hkj : c.kind j = .receive) :
    ∃ s', Internal c s s' := by
  by_contra hno
  have hs : ∀ s', ¬ Internal c s s' := fun s' hs' => hno ⟨s', hs'⟩
  have hI := h.inv
  have hlinked : ∀ {k}, (s.pc k).pending → k ∈ s.linked := fun {k} hk => by
    rcases stuck h hc hs k with h1 | ⟨r, h1⟩ | h1
    · exact absurd h1 hk.1
    · exact absurd h1 (hk.2 r)
    · exact h1
  -- each of the two would be in a list, and never both lists hold items
  have hw : i ∈ s.ch.witemList := by
    rcases List.mem_append.1 (hlinked hi) with h1 | h1
    · simp [hI.receivers.2 i h1] at hki
    · exact h1
  have hr : j ∈ s.ch.ritemList := by
    rcases List.mem_append.1 (hlinked hj) with h1 | h1
    · exact h1
    · simp [hI.senders.2 j h1] at hkj
  rcases hI.either with he | he
  · simp [he] at hr
  · simp [he] at hw

/-- **What a step of a call does to the memory**: nothing, unless it is a transfer. -/
theorem Internal.memory (hs : Internal c s s') :
    s'.mem = s.mem ∧ s'.copies = s.copies ∨ ∃ i j, s.pc i = .popped j ∧ s' = s.copy c i j := by
  obtain ⟨hs, hpc', -⟩ := hs
  cases hs with
  | impl i hpc =>
    rcases s.after_cases c i with ⟨-, -, he⟩ | ⟨-, -, he⟩ | ⟨-, -, -, he⟩ | ⟨-, -, -, he⟩ |
      ⟨_, _, -, -, -, he⟩ | ⟨_, _, -, -, he⟩ | ⟨-, -, he⟩ | ⟨_, _, -, -, he⟩ <;>
      exact .inl (by rw [he]; exact ⟨rfl, rfl⟩)
  | copy i j hpc => exact .inr ⟨i, j, hpc, rfl⟩
  | user mem => exact absurd rfl hpc'
  | reuse n hf => exact absurd rfl hpc'
  | _ => exact .inl ⟨rfl, rfl⟩

end

/-! ## Calls that follow one another -/

inductive Side
  | sender
  | receiver
  deriving DecidableEq, Repr

/-- The `n`-th call at a side of the channel. -/
structure Turn where
  side : Side
  n : Nat
  deriving DecidableEq, Repr

def Side.kind : Side → Kind
  | .sender => .send
  | .receiver => .receive

/-- The calls of a channel with one sender and one receiver. -/
def turns (data : Turn → Nat) (itemSize : Nat) : Calls Turn :=
  { kind := fun i => i.side.kind, data, itemSize }

/-- The `k`-th send and the `k`-th receive. -/
def Turn.pair (k : Nat) : Turn × Turn := (⟨.sender, k⟩, ⟨.receiver, k⟩)

variable {c : Calls Turn} {s s' : State Turn} {data : Turn → Nat} {size : Nat} {e : Side}
  {k m n : Nat}

/-- A step in which a side makes a call only when its earlier calls have returned. -/
def InTurn (c : Calls Turn) (s s' : State Turn) : Prop :=
  Step c s s' ∧ ∀ e n, s.pc ⟨e, n⟩ = .fresh → s'.pc ⟨e, n⟩ ≠ .fresh →
    ∀ m < n, ∃ r, s.pc ⟨e, m⟩ = .done r

/-- The states reached by such steps. -/
abbrev TurnsReached (data : Turn → Nat) (size : Nat) : State Turn → Prop :=
  Reachable (fun s => ∃ mem, s = .start (turns data size) mem) (InTurn (turns data size))

/-- **The calls of the two sides**: they follow one another, and the `k`-th send is paired with the
`k`-th receive. -/
structure Turns (s : State Turn) : Prop where
  seq : ∀ e n m, m < n → s.pc ⟨e, n⟩ ≠ .fresh → ∃ r, s.pc ⟨e, m⟩ = .done r
  pairs : s.pairs = (List.range s.pairs.length).map Turn.pair
  copies : s.copies.map Copy.ends = (List.range s.copies.length).map Turn.pair

theorem plain_turns (data : Turn → Nat) (size : Nat) : Plain (turns data size) := by
  intro i
  rcases i with ⟨_ | _, n⟩
  · exact .inl rfl
  · exact .inr rfl

theorem TurnsReached.reached (h : TurnsReached data size s) : Reached (turns data size) s :=
  h.mono fun _ _ hs => hs.1

theorem mem_pairs (p : Turn × Turn) (l : Nat) :
    p ∈ (List.range l).map Turn.pair ↔ ∃ k < l, p = Turn.pair k := by
  simp only [List.mem_map, List.mem_range]
  constructor
  · rintro ⟨k, hk, rfl⟩
    exact ⟨k, hk, rfl⟩
  · rintro ⟨k, hk, rfl⟩
    exact ⟨k, hk, rfl⟩

/-- A call has a partner when it is in one of the pairs made so far. -/
theorem Turns.matched (h : Turns s) : s.Matched ⟨e, n⟩ ↔ n < s.pairs.length := by
  constructor
  · rintro ⟨j, hp | hp⟩
    · rw [h.pairs] at hp
      obtain ⟨k, hk, he⟩ := (mem_pairs _ _).1 hp
      simp only [Turn.pair, Prod.mk.injEq, Turn.mk.injEq] at he
      omega
    · rw [h.pairs] at hp
      obtain ⟨k, hk, he⟩ := (mem_pairs _ _).1 hp
      simp only [Turn.pair, Prod.mk.injEq, Turn.mk.injEq] at he
      omega
  · intro hn
    have hp : Turn.pair n ∈ s.pairs := by
      rw [h.pairs]
      exact (mem_pairs _ _).2 ⟨n, hn, rfl⟩
    cases e with
    | sender => exact ⟨_, .inl hp⟩
    | receiver => exact ⟨_, .inr hp⟩

/-- A call that has returned has been paired and served. -/
theorem Turns.of_done (h : Turns s) (hr : Reached (turns data size) s) {r : Int}
    (hd : s.pc ⟨e, n⟩ = .done r) : n < s.pairs.length ∧ n < s.copies.length := by
  have ho := (hr.opened (plain_turns data size)).done ⟨e, n⟩
  obtain rfl := ho.2 r hd
  have hf := hr.inv.fits ⟨e, n⟩
  simp only [Fits, hd] at hf
  have hm : s.Matched ⟨e, n⟩ := by
    rcases hf with ⟨-, hm⟩ | ⟨hcl, -⟩
    · exact hm
    · simp [success, closed, destroyed] at hcl
  refine ⟨h.matched.1 hm, ?_⟩
  obtain ⟨q, hq, he⟩ := hr.transfers.of_matched hr.inv hd hm
  have hq' : q.ends ∈ s.copies.map Copy.ends := List.mem_map_of_mem hq
  rw [h.copies] at hq'
  obtain ⟨k, hk, hqk⟩ := (mem_pairs _ _).1 hq'
  simp only [Copy.ends, Turn.pair, Prod.mk.injEq] at hqk
  rcases he with he | he
  · rw [he, Turn.mk.injEq] at hqk
    omega
  · rw [he, Turn.mk.injEq, Turn.mk.injEq] at hqk
    omega

/-- The calls before one that has been made have been paired and served. -/
theorem Turns.le (h : Turns s) (hr : Reached (turns data size) s) (hn : s.pc ⟨e, n⟩ ≠ .fresh) :
    n ≤ s.pairs.length ∧ n ≤ s.copies.length := by
  cases n with
  | zero => simp
  | succ n =>
    obtain ⟨r, hd⟩ := h.seq e (n + 1) n (by omega) hn
    have := h.of_done hr hd
    omega

/-- A call that is about to be paired makes the next pair. -/
theorem Turns.next (h : Turns s) (hr : Reached (turns data size) s) (hn : s.pc ⟨e, n⟩ ≠ .fresh)
    (hm : ¬ s.Matched ⟨e, n⟩) : n = s.pairs.length := by
  rw [h.matched] at hm
  have := (h.le hr hn).1
  omega

/-- **The next transfer**: a call that has to copy an item belongs to the first pair whose item was
not copied, and neither call of the pair has returned. -/
theorem Turns.due (h : Turns s) (hr : Reached (turns data size) s) {i j : Turn}
    (hp : s.pc i = .popped j) :
    State.pairOf (turns data size) i j = Turn.pair s.copies.length ∧
      ∀ e, (s.pc ⟨e, s.copies.length⟩).pending := by
  have hI := hr.inv
  have hf := hI.fits i
  simp only [Fits, hp] at hf
  have hj := hI.waiting_of_held (g := j) (i := i) (by simp [hp])
  have hpair := hI.pairOf_mem hf.1
  rw [h.pairs] at hpair
  obtain ⟨k, -, hk⟩ := (mem_pairs _ _).1 hpair
  -- both calls of the pair have been made, so that the earlier pairs are served
  have hij : i.n = k ∧ j.n = k ∧ ∀ e, (⟨e, k⟩ : Turn) = i ∨ (⟨e, k⟩ : Turn) = j := by
    unfold State.pairOf Turn.pair at hk
    split at hk
    all_goals
      obtain ⟨h1, h2⟩ := Prod.mk.inj hk
      rw [h1, h2]
      refine ⟨rfl, rfl, fun e => ?_⟩
      cases e <;> simp
  have hin : s.pc ⟨i.side, i.n⟩ ≠ .fresh := by
    rw [show (⟨i.side, i.n⟩ : Turn) = i from rfl, hp]
    simp
  have hle := (h.le hr hin).2
  have hge : s.copies.length ≤ k := by
    by_contra hlt
    apply hr.transfers.due i j hp
    rw [h.copies, hk]
    exact (mem_pairs _ _).2 ⟨k, by omega, rfl⟩
  obtain rfl : k = s.copies.length := by omega
  refine ⟨hk, fun e => ?_⟩
  rcases hij.2.2 e with he | he
  · rw [he, hp]
    exact ⟨by simp, by simp⟩
  · rw [he, hj]
    exact ⟨by simp, by simp⟩

theorem Turns.step (hr : Reached (turns data size) s) (h : Turns s)
    (hs : InTurn (turns data size) s s') : Turns s' := by
  have hI := hr.inv
  have ht := hr.transfers
  have hplain := plain_turns data size
  have hdone : ∀ {i : Turn} {r : Int}, s.pc i = .done r → s'.pc i = .done r := fun {i r} hd => by
    rcases hs.1.ended hI (g := i) (by rw [hd]; rfl) with ⟨h1, -⟩ | ⟨h1, -⟩
    · rw [h1, hd]
    · simp [h1] at hd
  have hseq : ∀ e n m, m < n → s'.pc ⟨e, n⟩ ≠ .fresh → ∃ r, s'.pc ⟨e, m⟩ = .done r := by
    intro e n m hmn hn
    by_cases hf : s.pc ⟨e, n⟩ = .fresh
    · obtain ⟨r, hd⟩ := hs.2 e n hf hn m hmn
      exact ⟨r, hdone hd⟩
    · obtain ⟨r, hd⟩ := h.seq e n m hmn hf
      exact ⟨r, hdone hd⟩
  have hkeep : s'.pairs = s.pairs → s'.copies = s.copies → Turns s' := fun h1 h2 =>
    ⟨hseq, by rw [h1]; exact h.pairs, by rw [h2]; exact h.copies⟩
  rcases hs.1.stages hI with ⟨hp, hco, -⟩ | ⟨i, -, -, -, rfl⟩ | ⟨i, hin, rfl⟩ | ⟨i, j, hp, rfl⟩ |
    ⟨i, items, -, rfl⟩
  · exact hkeep hp hco
  · exact hkeep rfl rfl
  · -- a call pops the peer that waits: both make the next pair
    have hpairs : ∀ {x y : Turn}, (s.after (turns data size) i).copies = s.copies →
        (s.after (turns data size) i).pairs = s.pairs ++ [(x, y)] →
        x.side = .sender → y.side = .receiver → s.pc x ≠ .fresh → s.pc y ≠ .fresh →
        ¬ s.Matched x → ¬ s.Matched y → Turns (s.after (turns data size) i) := by
      intro x y hco hpa hx hy hxf hyf hxm hym
      obtain ⟨xe, xn⟩ := x
      obtain ⟨ye, yn⟩ := y
      obtain rfl : xe = .sender := hx
      obtain rfl : ye = .receiver := hy
      have hxn := h.next hr hxf hxm
      have hyn := h.next hr hyf hym
      refine ⟨hseq, ?_, by rw [hco]; exact h.copies⟩
      rw [hpa, List.length_append, List.length_singleton, List.range_succ, List.map_append,
        ← h.pairs, List.map_singleton, Turn.pair, hxn, hyn]
    have hmi := hI.unmatched_inside hin
    rcases s.after_cases (turns data size) i with ⟨-, -, he⟩ | ⟨-, -, he⟩ | ⟨-, -, -, he⟩ |
      ⟨-, -, -, he⟩ | ⟨j, rest, hk, -, hl, he⟩ | ⟨j, rest, hk, hl, he⟩ | ⟨-, -, he⟩ |
      ⟨items, rest, -, -, he⟩
    · exact hkeep (by rw [he]; rfl) (by rw [he]; rfl)
    · exact hkeep (by rw [he]; rfl) (by rw [he]; rfl)
    · exact hkeep (by rw [he]; rfl) (by rw [he]; rfl)
    · exact hkeep (by rw [he]; rfl) (by rw [he]; rfl)
    · have hj : j ∈ s.linked := List.mem_append_left _ (by rw [hl]; exact List.mem_cons_self)
      have hjb := hI.blocked_of_linked hj
      have hjk := hI.receivers.2 j (by rw [hl]; exact List.mem_cons_self)
      refine hpairs (x := i) (y := j) (by rw [he]; rfl) (by rw [he]) ?_ ?_ (by simp [hin])
        (fun hf => by simp [hf] at hjb) hmi (hI.unmatched_of_linked hj)
      · cases hie : i.side with
        | sender => rfl
        | receiver => simp [turns, hie, Side.kind] at hk
      · cases hje : j.side with
        | receiver => rfl
        | sender => simp [turns, hje, Side.kind] at hjk
    · have hj : j ∈ s.linked := List.mem_append_right _ (by rw [hl]; exact List.mem_cons_self)
      have hjb := hI.blocked_of_linked hj
      have hjk := hI.senders.2 j (by rw [hl]; exact List.mem_cons_self)
      refine hpairs (x := j) (y := i) (by rw [he]; rfl) (by rw [he]) ?_ ?_
        (fun hf => by simp [hf] at hjb) (by simp [hin]) (hI.unmatched_of_linked hj) hmi
      · cases hje : j.side with
        | sender => rfl
        | receiver => simp [turns, hje, Side.kind] at hjk
      · cases hie : i.side with
        | receiver => rfl
        | sender => simp [turns, hie, Side.kind] at hk
    · exact hkeep (by rw [he]; rfl) (by rw [he]; rfl)
    · exact hkeep (by rw [he]; rfl) (by rw [he]; rfl)
  · -- the pair that is transferred is the first one that was not
    refine ⟨hseq, h.pairs, ?_⟩
    have hends : (s.copy (turns data size) i j).copies.map Copy.ends =
        s.copies.map Copy.ends ++ [State.pairOf (turns data size) i j] := by
      simp [State.copy, Copy.ends]
    have hlen : (s.copy (turns data size) i j).copies.length = s.copies.length + 1 := by
      simp [State.copy]
    rw [hends, hlen, (h.due hr hp).1, List.range_succ, List.map_append, ← h.copies,
      List.map_singleton]
  · exact hkeep rfl rfl

theorem TurnsReached.turns (h : TurnsReached data size s) : Turns s :=
  h.invariant_from (fun _ => TurnsReached.reached)
    (by
      rintro _ ⟨mem, rfl⟩
      exact ⟨fun _ _ _ _ hn => absurd rfl hn, rfl, rfl⟩)
    fun _ _ hr hJ hs => hJ.step hr hs

/-- The channel is not freed, so that every transfer finds its item size. -/
theorem TurnsReached.itemSize (h : TurnsReached data size s) : s.ch.itemSize = size := by
  have hplain := plain_turns data size
  have hg : GuardedReached (Channel.turns data size) s := by
    refine h.invariant_from (fun _ => TurnsReached.reached) (fun _ h0 => .start h0) ?_
    intro s s' hr hJ hs
    refine hJ.next ⟨hs.1, fun _ hf => ?_⟩
    have ho := (hr.opened hplain).step hr.inv hplain hs.1
    simp [ho.freed] at hf
  exact hg.whole.size (h.reached.opened hplain).freed

/-- A step of a call keeps the turns. -/
theorem TurnsReached.internal (h : TurnsReached data size s)
    (hs : Internal (Channel.turns data size) s s') : TurnsReached data size s' :=
  h.next ⟨hs.1, fun _ _ hf hn => absurd (hs.2.2 _ hf) hn⟩

/-- The callers' own code has written memory. -/
theorem TurnsReached.user (h : TurnsReached data size s) (mem : Memory) :
    TurnsReached data size { s with mem } :=
  h.next ⟨.user mem, fun _ _ hf hn => absurd hf hn⟩

/-- **A step of a call, for the clients of the channel**: it leaves their memory alone, or it
transfers the next item, of a send and a receive that have both been made and not returned. -/
theorem TurnsReached.transfer (h : TurnsReached data size s)
    (hs : Internal (Channel.turns data size) s s') :
    s'.mem = s.mem ∧ s'.copies = s.copies ∨
    (∀ e, (s.pc ⟨e, s.copies.length⟩).pending) ∧
      s'.mem = memcpy (data ⟨.receiver, s.copies.length⟩) (data ⟨.sender, s.copies.length⟩) size
        s.mem ∧
      s'.copies = s.copies ++ [⟨⟨.sender, s.copies.length⟩, ⟨.receiver, s.copies.length⟩, s.mem,
        s'.mem⟩] := by
  rcases hs.memory with hm | ⟨i, j, hp, rfl⟩
  · exact .inl hm
  · obtain ⟨hpair, hpend⟩ := h.turns.due h.reached hp
    refine .inr ⟨hpend, ?_, ?_⟩
    · simp only [State.copy, hpair, Turn.pair, h.itemSize]
      rfl
    · simp only [State.copy, hpair, Turn.pair]

end Channel
