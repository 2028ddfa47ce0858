import FjxFiber.Channel.Model

/-!
# Where the callers of a channel are

`Inv` is kept by every step (`Inv.step`): the lock is held by exactly the call that is in its
section or suspending itself; every blocked caller lies exactly once in one of the two lists or in
the hands of one call (`Inv.placed`); never both lists hold items, and a closed channel has no
blocked receiver; senders and receivers are popped in the order in which they took the lock
(`Inv.worder`, `Inv.rorder`); and what each call knows about the items it holds and about its own
item (`Fits`).
-/

set_option autoImplicit false

namespace Channel

open Lib

variable {ι : Type*}

namespace State

/-- One of the two calls popped the other. -/
def Paired (s : State ι) (i j : ι) : Prop := (i, j) ∈ s.pairs ∨ (j, i) ∈ s.pairs

def Matched (s : State ι) (i : ι) : Prop := ∃ j, s.Paired i j

def linked (s : State ι) : List ι := s.ch.ritemList ++ s.ch.witemList

/-- Where blocked callers lie: in the channel (`none`), or in the hands of a call. -/
def place (s : State ι) : Option ι → List ι
  | none => s.linked
  | some i => (s.pc i).held

end State

/-- What a call knows: the state of the items it holds or of its own item, and whether it has a
partner. -/
def Fits (c : Calls ι) (s : State ι) (i : ι) : Prop :=
  match s.pc i with
  | .test | .want | .inside => s.itemState i = itemInit
  | .popped j | .copied j => s.Paired i j ∧ s.itemState j = itemInit
  | .marked j => s.Paired i j ∧ s.itemState j = success
  | .switched | .ready => s.Matched i
  | .enqueueing g => s.pc g = .switched ∧ s.Paired g i ∧ s.itemState i = success
  | .resumed => s.itemState i = success ∧ s.Matched i ∨
      (s.itemState i = closed ∨ s.itemState i = destroyed) ∧ ¬ s.Matched i
  | .freeing items => c.kind i = .destroy ∧
      ∀ g ∈ items, s.itemState g = itemInit ∧ ¬ s.Matched g
  | .marking todo items => (c.kind i = .close ∨ c.kind i = .destroy) ∧
      (∀ g ∈ todo, s.itemState g = itemInit ∧ ¬ s.Matched g) ∧
      ∀ g ∈ items, s.itemState g = wakeState (c.kind i) ∧ ¬ s.Matched g
  | .waking items => (c.kind i = .close ∨ c.kind i = .destroy) ∧
      ∀ g ∈ items, s.itemState g = wakeState (c.kind i) ∧ ¬ s.Matched g
  | .done r => r = success ∧ s.Matched i ∨ (r = closed ∨ r = destroyed) ∧ ¬ s.Matched i
  | _ => True

variable [DecidableEq ι]

structure Inv (c : Calls ι) (s : State ι) : Prop where
  lock : ∀ i, s.lock = some i ↔ (s.pc i).locked = true
  placed : Placed s.place fun g => (s.pc g).blocked = true
  publishing : ∀ i, s.pc i = .publishing → i ∈ s.linked
  either : s.ch.ritemList = [] ∨ s.ch.witemList = []
  closed : s.ch.closed = true → s.ch.ritemList = []
  inside : ∀ i, s.pc i = .inside → s.acqs = s.secs ++ [i]
  outside : (∀ i, s.pc i ≠ .inside) → s.acqs = s.secs
  nodup : s.acqs.Nodup
  early : ∀ i, (s.pc i).early = true → i ∉ s.acqs
  worder : (s.pairs.map Prod.fst ++ s.ch.witemList).Sublist s.secs
  rorder : (s.pairs.map Prod.snd ++ s.ch.ritemList).Sublist s.secs
  senders : (∀ p ∈ s.pairs, c.kind p.1 = .send) ∧ ∀ g ∈ s.ch.witemList, c.kind g = .send
  receivers : (∀ p ∈ s.pairs, c.kind p.2 = .receive) ∧ ∀ g ∈ s.ch.ritemList, c.kind g = .receive
  init : ∀ g ∈ s.linked, s.itemState g = itemInit
  fits : ∀ i, Fits c s i

variable {c : Calls ι} {s s' : State ι} {i j g k : ι}

/-! ## Reading the invariant -/

omit [DecidableEq ι] in
theorem Fits.frame (h : Fits c s k) (hpc : s'.pc k = s.pc k)
    (hpairs : ∀ p ∈ s.pairs, p ∈ s'.pairs)
    (hkeep : ∀ g, g ∈ (s.pc k).held ∨ g = k ∧ (s.pc k).blocked = false →
      s'.itemState g = s.itemState g ∧ (s'.Matched g → s.Matched g))
    (hswitched : ∀ g, s.pc k = .enqueueing g → s.pc g = .switched → s'.pc g = .switched) :
    Fits c s' k := by
  have hP : ∀ {i j}, s.Paired i j → s'.Paired i j := fun h => h.imp (hpairs _) (hpairs _)
  have hM : ∀ {i}, s.Matched i → s'.Matched i := fun ⟨j, h⟩ => ⟨j, hP h⟩
  unfold Fits at h ⊢
  rw [hpc]
  cases hk : s.pc k with
  | fresh => trivial
  | publishing => trivial
  | waiting => trivial
  | finished => trivial
  | test =>
    simp only [hk] at h ⊢
    exact (hkeep k (.inr ⟨rfl, by simp [hk]⟩)).1.trans h
  | want =>
    simp only [hk] at h ⊢
    exact (hkeep k (.inr ⟨rfl, by simp [hk]⟩)).1.trans h
  | inside =>
    simp only [hk] at h ⊢
    exact (hkeep k (.inr ⟨rfl, by simp [hk]⟩)).1.trans h
  | popped j =>
    simp only [hk] at h hkeep ⊢
    exact ⟨hP h.1, (hkeep j (by simp)).1.trans h.2⟩
  | copied j =>
    simp only [hk] at h hkeep ⊢
    exact ⟨hP h.1, (hkeep j (by simp)).1.trans h.2⟩
  | marked j =>
    simp only [hk] at h hkeep ⊢
    exact ⟨hP h.1, (hkeep j (by simp)).1.trans h.2⟩
  | switched => simp only [hk] at h ⊢; exact hM h
  | ready => simp only [hk] at h ⊢; exact hM h
  | enqueueing g =>
    simp only [hk] at h ⊢
    exact ⟨hswitched g hk h.1, hP h.2.1,
      (hkeep k (.inr ⟨rfl, by simp [hk]⟩)).1.trans h.2.2⟩
  | resumed =>
    obtain ⟨h1, h2⟩ := hkeep k (.inr ⟨rfl, by simp [hk]⟩)
    simp only [hk] at h ⊢
    rw [h1]
    exact h.imp (fun h => ⟨h.1, hM h.2⟩) fun h => ⟨h.1, fun hm => h.2 (h2 hm)⟩
  | done r =>
    obtain ⟨-, h2⟩ := hkeep k (.inr ⟨rfl, by simp [hk]⟩)
    simp only [hk] at h ⊢
    exact h.imp (fun h => ⟨h.1, hM h.2⟩) fun h => ⟨h.1, fun hm => h.2 (h2 hm)⟩
  | freeing items =>
    simp only [hk] at h hkeep ⊢
    refine ⟨h.1, fun g hg => ?_⟩
    obtain ⟨h1, h2⟩ := hkeep g (.inl hg)
    exact ⟨h1.trans (h.2 g hg).1, fun hm => (h.2 g hg).2 (h2 hm)⟩
  | marking todo items =>
    simp only [hk] at h hkeep ⊢
    refine ⟨h.1, fun g hg => ?_, fun g hg => ?_⟩
    · obtain ⟨h1, h2⟩ := hkeep g (.inl (by simp [hg]))
      exact ⟨h1.trans (h.2.1 g hg).1, fun hm => (h.2.1 g hg).2 (h2 hm)⟩
    · obtain ⟨h1, h2⟩ := hkeep g (.inl (by simp [hg]))
      exact ⟨h1.trans (h.2.2 g hg).1, fun hm => (h.2.2 g hg).2 (h2 hm)⟩
  | waking items =>
    simp only [hk] at h hkeep ⊢
    refine ⟨h.1, fun g hg => ?_⟩
    obtain ⟨h1, h2⟩ := hkeep g (.inl hg)
    exact ⟨h1.trans (h.2 g hg).1, fun hm => (h.2 g hg).2 (h2 hm)⟩

namespace Inv

theorem locked_unique (h : Inv c s) (hi : (s.pc i).locked = true) (hj : (s.pc j).locked = true) :
    i = j :=
  Option.some.inj (((h.lock i).2 hi).symm.trans ((h.lock j).2 hj))

theorem unlocked (h : Inv c s) (hl : s.lock = none) : ¬ (s.pc i).locked = true := fun hi => by
  simp [(h.lock i).2 hi] at hl

theorem blocked_of_held (h : Inv c s) (hg : g ∈ (s.pc i).held) : (s.pc g).blocked = true := by
  have := h.placed.live_of_mem (p := some i) hg
  exact this

theorem blocked_of_linked (h : Inv c s) (hg : g ∈ s.linked) : (s.pc g).blocked = true := by
  have := h.placed.live_of_mem (p := none) hg
  exact this

theorem not_held_of_linked (h : Inv c s) (hg : g ∈ s.linked) : g ∉ (s.pc i).held := fun hi => by
  have := h.placed.place_unique (p := none) (q := some i) hg hi
  simp at this

theorem held_unique (h : Inv c s) (hi : g ∈ (s.pc i).held) (hj : g ∈ (s.pc j).held) : i = j := by
  have := h.placed.place_unique (p := some i) (q := some j) hi hj
  exact Option.some.inj this

/-- A held caller has been suspended. -/
theorem waiting_of_held (h : Inv c s) (hg : g ∈ (s.pc i).held) : s.pc g = .waiting := by
  have hb := h.blocked_of_held hg
  cases hp : s.pc g with
  | publishing => exact absurd hg (h.not_held_of_linked (h.publishing g hp))
  | waiting => rfl
  | _ => simp [hp] at hb

theorem secs_nodup (h : Inv c s) : s.secs.Nodup := by
  have hn := h.nodup
  by_cases hin : ∀ i, s.pc i ≠ .inside
  · rwa [h.outside hin] at hn
  · obtain ⟨i, hi⟩ := not_forall.1 hin
    rw [h.inside i (not_not.1 hi)] at hn
    exact (List.nodup_append.1 hn).1

theorem mem_acqs (h : Inv c s) (hi : i ∈ s.secs) : i ∈ s.acqs := by
  by_cases hin : ∀ i, s.pc i ≠ .inside
  · rwa [h.outside hin]
  · obtain ⟨j, hj⟩ := not_forall.1 hin
    rw [h.inside j (not_not.1 hj)]
    exact List.mem_append_left _ hi

theorem notMem_secs (h : Inv c s) (hi : s.pc i = .inside) : i ∉ s.secs := fun hm => by
  have hn := h.nodup
  rw [h.inside i hi] at hn
  exact (List.nodup_append.1 hn).2.2 i hm i (by simp) rfl

theorem mem_secs_of_matched (h : Inv c s) (hm : s.Matched i) : i ∈ s.secs := by
  obtain ⟨j, hp | hp⟩ := hm
  · exact h.worder.subset (List.mem_append_left _ (List.mem_map_of_mem (f := Prod.fst) hp))
  · exact h.rorder.subset (List.mem_append_left _ (List.mem_map_of_mem (f := Prod.snd) hp))

theorem mem_secs_of_linked (h : Inv c s) (hg : g ∈ s.linked) : g ∈ s.secs := by
  rcases List.mem_append.1 hg with hg | hg
  · exact h.rorder.subset (List.mem_append_right _ hg)
  · exact h.worder.subset (List.mem_append_right _ hg)

/-- A linked caller has no partner. -/
theorem unmatched_of_linked (h : Inv c s) (hg : g ∈ s.linked) : ¬ s.Matched g := by
  have hw := h.worder.nodup h.secs_nodup
  have hr := h.rorder.nodup h.secs_nodup
  rintro ⟨j, hp⟩
  rcases List.mem_append.1 hg with hg | hg
  · have hk := h.receivers.2 g hg
    rcases hp with hp | hp
    · simp [h.senders.1 _ hp] at hk
    · exact (List.nodup_append.1 hr).2.2 g (List.mem_map_of_mem (f := Prod.snd) hp) g hg rfl
  · have hk := h.senders.2 g hg
    rcases hp with hp | hp
    · exact (List.nodup_append.1 hw).2.2 g (List.mem_map_of_mem (f := Prod.fst) hp) g hg rfl
    · simp [h.receivers.1 _ hp] at hk

/-- What a call knows does not concern another call that is not blocked, nor what that one holds,
nor the linked callers. -/
theorem apart (h : Inv c s) (hk : k ≠ i) (hi : (s.pc i).blocked = false)
    (hg : g ∈ (s.pc k).held ∨ g = k ∧ (s.pc k).blocked = false) :
    g ≠ i ∧ g ∉ (s.pc i).held ∧ g ∉ s.linked := by
  rcases hg with hg | ⟨rfl, hb⟩
  · refine ⟨fun he => ?_, fun hgi => hk (h.held_unique hg hgi), fun hl =>
      h.not_held_of_linked hl hg⟩
    have := h.blocked_of_held hg
    rw [he, hi] at this
    cases this
  · refine ⟨hk, fun hgi => ?_, fun hl => ?_⟩
    · have := h.blocked_of_held hgi
      rw [hb] at this
      cases this
    · have := h.blocked_of_linked hl
      rw [hb] at this
      cases this

/-! ## Steps of one call -/

/-- **A step of one call** that is not blocked, neither takes nor releases the lock, and holds on
to the callers in its hands. -/
theorem solo (h : Inv c s) (i : ι) {p₀ : Pc ι} (h₀ : s.pc i = p₀) (p : Pc ι)
    (hpc : s'.pc = Function.update s.pc i p)
    (hsame : s'.lock = s.lock ∧ s'.ch.ritemList = s.ch.ritemList ∧
      s'.ch.witemList = s.ch.witemList ∧ s'.ch.closed = s.ch.closed ∧ s'.acqs = s.acqs ∧
      s'.secs = s.secs ∧ s'.pairs = s.pairs)
    (hflags : (p₀.locked = false ∧ p.locked = false) ∧ (p₀.blocked = false ∧ p.blocked = false) ∧
      p.held = p₀.held ∧ (p.early = true → p₀.early = true) ∧ p₀ ≠ .switched)
    (hitem : ∀ g, g ≠ i → g ∉ p₀.held → s'.itemState g = s.itemState g)
    (hfits : Fits c s' i) : Inv c s' := by
  subst h₀
  obtain ⟨hlocked, hblocked, hheld, hearly, hswitched⟩ := hflags
  obtain ⟨hlock, hr, hw, hc, ha, hse, hp⟩ := hsame
  have hk : ∀ k, k ≠ i → s'.pc k = s.pc k := fun k hk => by rw [hpc, Function.update_of_ne hk]
  have hi : s'.pc i = p := by rw [hpc, Function.update_self]
  have hlk : ∀ k, (s'.pc k).locked = (s.pc k).locked := fun k => by
    by_cases he : k = i
    · rw [he, hi, hlocked.1, hlocked.2]
    · rw [hk k he]
  have hlinked : s'.linked = s.linked := by rw [State.linked, hr, hw]; rfl
  have hin : ∀ k, s'.pc k = .inside ↔ s.pc k = .inside := fun k => by
    by_cases he : k = i
    · have h1 := hlocked.1
      have h2 := hlocked.2
      subst he
      rw [hi]
      constructor
      · intro hp
        simp [hp] at h2
      · intro hp
        simp [hp] at h1
    · rw [hk k he]
  exact {
    lock := fun k => by rw [hlock, hlk]; exact h.lock k
    placed := by
      refine h.placed.shift (fun q => ?_) fun g => ?_
      · cases q with
        | none => rw [State.place, hlinked]; rfl
        | some k =>
          by_cases he : k = i
          · simp [State.place, he, hi, hheld]
          · simp [State.place, hk k he]
      · by_cases he : g = i
        · simp [he, hi, hblocked]
        · simp [hk g he]
    publishing := fun k hp => by
      rw [hlinked]
      by_cases he : k = i
      · have := hblocked.2
        rw [← hi, ← he, hp] at this
        cases this
      · exact h.publishing k (hk k he ▸ hp)
    either := by rw [hr, hw]; exact h.either
    closed := by rw [hr, hc]; exact h.closed
    inside := fun k hp => by rw [ha, hse]; exact h.inside k ((hin k).1 hp)
    outside := fun hp => by rw [ha, hse]; exact h.outside fun k hk => hp k ((hin k).2 hk)
    nodup := by rw [ha]; exact h.nodup
    early := fun k hp => by
      rw [ha]
      by_cases he : k = i
      · rw [he, hi] at hp
        exact he ▸ h.early i (hearly hp)
      · exact h.early k (hk k he ▸ hp)
    worder := by rw [hp, hw, hse]; exact h.worder
    rorder := by rw [hp, hr, hse]; exact h.rorder
    senders := by rw [hp, hw]; exact h.senders
    receivers := by rw [hp, hr]; exact h.receivers
    init := fun g hg => by
      rw [hlinked] at hg
      rw [hitem g (fun he => ?_) (h.not_held_of_linked hg)]
      · exact h.init g hg
      · have := h.blocked_of_linked hg
        rw [he, hblocked.1] at this
        cases this
    fits := fun k => by
      by_cases he : k = i
      · exact he ▸ hfits
      · refine (h.fits k).frame (hk k he) (fun q hq => hp ▸ hq) (fun g hg => ?_) fun g _ hg => ?_
        · obtain ⟨h1, h2, -⟩ := h.apart he hblocked.1 hg
          refine ⟨hitem g h1 h2, fun hm => ?_⟩
          simpa [State.Matched, State.Paired, hp] using hm
        · rw [hk g fun hgi => hswitched (hgi ▸ hg)]
          exact hg }

/-- **A step in which `i` resumes `g`**, or lets it go on: both leave their places, nothing else
changes. -/
theorem two (h : Inv c s) (hne : g ≠ i) (p q : Pc ι)
    (hpc : s'.pc = Function.update (Function.update s.pc g q) i p)
    (hsame : s'.lock = s.lock ∧ s'.ch = s.ch ∧ s'.acqs = s.acqs ∧ s'.secs = s.secs ∧
      s'.pairs = s.pairs ∧ s'.itemState = s.itemState)
    (hlocked : (s.pc i).locked = false ∧ (s.pc g).locked = false ∧ p.locked = false ∧
      q.locked = false)
    (hblocked : p.blocked = false ∧ q.blocked = false) (hearly : p.early = false ∧ q.early = false)
    (placed : Placed s'.place fun k => (s'.pc k).blocked = true)
    (hswitched : ∀ k x, k ≠ i → k ≠ g → s.pc k = .enqueueing x → s.pc x = .switched →
      x ≠ i ∧ x ≠ g)
    (hi : Fits c s' i) (hg : Fits c s' g) : Inv c s' := by
  obtain ⟨hlock, hch, ha, hse, hp, hitem⟩ := hsame
  have hk : ∀ k, k ≠ i → k ≠ g → s'.pc k = s.pc k := fun k h1 h2 => by
    rw [hpc, Function.update_of_ne h1, Function.update_of_ne h2]
  have hpi : s'.pc i = p := by rw [hpc, Function.update_self]
  have hpg : s'.pc g = q := by rw [hpc, Function.update_of_ne hne, Function.update_self]
  have hlinked : s'.linked = s.linked := by rw [State.linked, hch]; rfl
  have hlk : ∀ k, (s'.pc k).locked = (s.pc k).locked := fun k => by
    by_cases h1 : k = i
    · rw [h1, hpi, hlocked.1, hlocked.2.2.1]
    · by_cases h2 : k = g
      · rw [h2, hpg, hlocked.2.1, hlocked.2.2.2]
      · rw [hk k h1 h2]
  have hold : ∀ {k}, (s'.pc k).early = true ∨ s'.pc k = .publishing → s'.pc k = s.pc k :=
    fun {k} ho => by
      refine hk k (fun h1 => ?_) fun h2 => ?_
      · rw [h1, hpi] at ho
        rcases ho with ho | rfl
        · simp [hearly] at ho
        · simp at hblocked
      · rw [h2, hpg] at ho
        rcases ho with ho | rfl
        · simp [hearly] at ho
        · simp at hblocked
  have hin : ∀ k, s'.pc k = .inside ↔ s.pc k = .inside := fun k => by
    have h1 := hlocked
    constructor
    · intro hp'
      rw [← hk k (fun he => ?_) fun he => ?_]
      · exact hp'
      · rw [he, hpi] at hp'
        simp [hp'] at h1
      · rw [he, hpg] at hp'
        simp [hp'] at h1
    · intro hp'
      rw [hk k (fun he => ?_) fun he => ?_]
      · exact hp'
      · simp [he ▸ hp'] at h1
      · simp [he ▸ hp'] at h1
  exact {
    lock := fun k => by rw [hlock, hlk]; exact h.lock k
    placed
    publishing := fun k hp' => by
      rw [hlinked]
      exact h.publishing k ((hold (.inr hp')).symm.trans hp')
    either := by rw [hch]; exact h.either
    closed := by rw [hch]; exact h.closed
    inside := fun k hp' => by rw [ha, hse]; exact h.inside k ((hin k).1 hp')
    outside := fun hp' => by rw [ha, hse]; exact h.outside fun k hk => hp' k ((hin k).2 hk)
    nodup := by rw [ha]; exact h.nodup
    early := fun k hp' => by rw [ha]; exact h.early k (hold (.inl hp') ▸ hp')
    worder := by rw [hp, hch, hse]; exact h.worder
    rorder := by rw [hp, hch, hse]; exact h.rorder
    senders := by rw [hp, hch]; exact h.senders
    receivers := by rw [hp, hch]; exact h.receivers
    init := by rw [hlinked, hitem]; exact h.init
    fits := fun k => by
      by_cases h1 : k = i
      · exact h1 ▸ hi
      · by_cases h2 : k = g
        · exact h2 ▸ hg
        · refine (h.fits k).frame (hk k h1 h2) (fun x hx => hp ▸ hx) (fun x _ => ?_)
            fun x hx hxs => ?_
          · exact ⟨congrFun hitem x, by simp [State.Matched, State.Paired, hp]⟩
          · obtain ⟨h3, h4⟩ := hswitched k x h1 h2 hx hxs
            exact (hk x h3 h4).trans hxs }

/-- A call resumes the first of the callers in its hands. -/
theorem resume (h : Inv c s) (p q : Pc ι) (hheld : (s.pc i).held = g :: p.held)
    (hpc : s'.pc = Function.update (Function.update s.pc g q) i p)
    (hsame : s'.lock = s.lock ∧ s'.ch = s.ch ∧ s'.acqs = s.acqs ∧ s'.secs = s.secs ∧
      s'.pairs = s.pairs ∧ s'.itemState = s.itemState)
    (hlocked : (s.pc i).locked = false ∧ p.locked = false ∧ q.locked = false)
    (hblocked : (s.pc i).blocked = false ∧ p.blocked = false ∧ q.blocked = false)
    (hq : q.held = []) (hearly : p.early = false ∧ q.early = false)
    (hswitched : s.pc i ≠ .switched) (hi : Fits c s' i) (hg : Fits c s' g) : Inv c s' := by
  have hgi : g ∈ (s.pc i).held := by simp [hheld]
  have hgw := h.waiting_of_held hgi
  have hne : g ≠ i := fun he => by simp [← he, hgw] at hblocked
  have hpc' : ∀ k, s'.pc k = if k = i then p else if k = g then q else s.pc k := fun k => by
    simp [hpc, Function.update_apply]
  refine h.two hne p q hpc hsame ⟨hlocked.1, by simp [hgw], hlocked.2⟩ hblocked.2 hearly ?_
    (fun k x h1 h2 hx hxs => ⟨fun he => hswitched (he ▸ hxs), fun he => ?_⟩) hi hg
  · refine h.placed.gone (x := g) (p := some i) ?_ (fun r hr => ?_) fun k => ?_
    · simp [State.place, hpc', hheld]
    · cases r with
      | none => rw [State.place, State.linked, hsame.2.1]; rfl
      | some k =>
        have he : k ≠ i := fun he => hr (by rw [he])
        by_cases h2 : k = g
        · simp [State.place, hpc', h2, hne, hq, hgw]
        · simp [State.place, hpc', he, h2]
    · by_cases h1 : k = i
      · simp [h1, hpc', hblocked]
      · by_cases h2 : k = g
        · simp [h2, hne, hpc', hblocked]
        · simp [h1, h2, hpc']
  · simp [he ▸ hxs] at hgw

/-- A call has at most one partner. -/
theorem paired_unique (h : Inv c s) (hj : s.Paired i j) (hk : s.Paired i k) : j = k := by
  have hw := (List.nodup_append.1 (h.worder.nodup h.secs_nodup)).1
  have hr := (List.nodup_append.1 (h.rorder.nodup h.secs_nodup)).1
  rcases hj with hj | hj <;> rcases hk with hk | hk
  · exact congrArg Prod.snd (List.inj_on_of_nodup_map hw hj hk rfl)
  · have h1 := h.senders.1 _ hj
    simp [h.receivers.1 _ hk] at h1
  · have h1 := h.senders.1 _ hk
    simp [h.receivers.1 _ hj] at h1
  · exact congrArg Prod.fst (List.inj_on_of_nodup_map hr hj hk rfl)

/-- The deferred release of the lock, once the caller has been suspended. -/
theorem release (h : Inv c s) (hpub : s.pc i = .publishing) :
    Inv c { s.goto i .waiting with lock := none } := by
  have hk : ∀ k, k ≠ i → (s.goto i .waiting).pc k = s.pc k := fun k hk => by
    simp [State.goto, hk]
  have hi : (s.goto i .waiting).pc i = .waiting := by simp [State.goto]
  have hli := h.publishing i hpub
  have hin : ∀ k, (s.goto i .waiting).pc k = .inside ↔ s.pc k = .inside := fun k => by
    by_cases he : k = i
    · simp [he, hi, hpub]
    · rw [hk k he]
  exact {
    lock := fun k => by
      by_cases he : k = i
      · simp [he, hi]
      · simp only [hk k he, reduceCtorEq, false_iff]
        exact fun hl => he (h.locked_unique hl (by simp [hpub]))
    placed := by
      refine h.placed.shift (fun q => ?_) fun g => ?_
      · cases q with
        | none => exact .refl _
        | some k =>
          by_cases he : k = i
          · simp [State.place, he, hi, hpub]
          · simp [State.place, hk k he]
      · by_cases he : g = i
        · simp [he, hi, hpub]
        · simp [hk g he]
    publishing := fun k hp => by
      by_cases he : k = i
      · simp [he, hi] at hp
      · exact h.publishing k (hk k he ▸ hp)
    either := h.either
    closed := h.closed
    inside := fun k hp => h.inside k ((hin k).1 hp)
    outside := fun hp => h.outside fun k hk => hp k ((hin k).2 hk)
    nodup := h.nodup
    early := fun k hp => by
      by_cases he : k = i
      · simp [he, hi] at hp
      · exact h.early k (hk k he ▸ hp)
    worder := h.worder
    rorder := h.rorder
    senders := h.senders
    receivers := h.receivers
    init := h.init
    fits := fun k => by
      by_cases he : k = i
      · simp [Fits, he, hi]
      · refine (h.fits k).frame (hk k he) (fun _ hq => hq) (fun _ _ => ⟨rfl, id⟩) fun g _ hg => ?_
        exact (hk g fun hgi => by simp [hgi, hpub] at hg).trans hg }

/-- The lock is taken. -/
theorem take (h : Inv c s) (hw : s.pc i = .want) (hl : s.lock = none) (b : Bool) :
    Inv c { s.goto i .inside with lock := some i, acqs := s.acqs ++ [i], closing := b } := by
  have hk : ∀ k, k ≠ i → (s.goto i .inside).pc k = s.pc k := fun k hk => by
    simp [State.goto, hk]
  have hi : (s.goto i .inside).pc i = .inside := by simp [State.goto]
  have hout : ∀ k, s.pc k ≠ .inside := fun k hp => h.unlocked hl (i := k) (by simp [hp])
  exact {
    lock := fun k => by
      by_cases he : k = i
      · simp [he, hi]
      · simp only [hk k he, Option.some.injEq]
        exact ⟨fun hik => absurd hik.symm he, fun hlk => absurd hlk (h.unlocked hl)⟩
    placed := by
      refine h.placed.shift (fun q => ?_) fun g => ?_
      · cases q with
        | none => exact .refl _
        | some k =>
          by_cases he : k = i
          · simp [State.place, he, hi, hw]
          · simp [State.place, hk k he]
      · by_cases he : g = i
        · simp [he, hi, hw]
        · simp [hk g he]
    publishing := fun k hp => by
      by_cases he : k = i
      · simp [he, hi] at hp
      · exact h.publishing k (hk k he ▸ hp)
    either := h.either
    closed := h.closed
    inside := fun k hp => by
      by_cases he : k = i
      · rw [he]
        exact congrArg (· ++ [i]) (h.outside hout)
      · exact absurd (hk k he ▸ hp) (hout k)
    outside := fun hp => absurd hi (hp i)
    nodup := by
      refine List.nodup_append.2 ⟨h.nodup, by simp, fun a ha b hb => ?_⟩
      have hia := h.early i (by simp [hw])
      simp only [List.mem_singleton] at hb
      exact fun he => hia (hb ▸ he ▸ ha)
    early := fun k hp => by
      by_cases he : k = i
      · simp [he, hi] at hp
      · simp [he, h.early k (hk k he ▸ hp)]
    worder := h.worder
    rorder := h.rorder
    senders := h.senders
    receivers := h.receivers
    init := h.init
    fits := fun k => by
      by_cases he : k = i
      · have := h.fits i
        simp only [Fits, hw] at this
        simpa [Fits, he, hi, State.goto] using this
      · refine (h.fits k).frame (hk k he) (fun _ hq => hq) (fun _ _ => ⟨rfl, id⟩) fun g _ hg => ?_
        exact (hk g fun hgi => by simp [hgi, hw] at hg).trans hg }

/-- **A critical section**: what is left to show of its outcome. -/
theorem critical (h : Inv c s) (hin : s.pc i = .inside) (p : Pc ι)
    (hpc : s'.pc = Function.update s.pc i p) (hsecs : s'.secs = s.secs ++ [i])
    (hacqs : s'.acqs = s.acqs) (hitem : s'.itemState = s.itemState)
    (hlock : p.locked = true ∧ s'.lock = s.lock ∨ p.locked = false ∧ s'.lock = none)
    (hpin : p ≠ .inside) (hearly : p.early = false)
    (placed : Placed s'.place fun g => (s'.pc g).blocked = true)
    (publishing : p = .publishing → i ∈ s'.linked)
    (either : s'.ch.ritemList = [] ∨ s'.ch.witemList = [])
    (closed : s'.ch.closed = true → s'.ch.ritemList = [])
    (worder : (s'.pairs.map Prod.fst ++ s'.ch.witemList).Sublist s'.secs)
    (rorder : (s'.pairs.map Prod.snd ++ s'.ch.ritemList).Sublist s'.secs)
    (senders : (∀ q ∈ s'.pairs, c.kind q.1 = .send) ∧ ∀ g ∈ s'.ch.witemList, c.kind g = .send)
    (receivers : (∀ q ∈ s'.pairs, c.kind q.2 = .receive) ∧
      ∀ g ∈ s'.ch.ritemList, c.kind g = .receive)
    (init : ∀ g ∈ s'.linked, s'.itemState g = itemInit)
    (hpairs : ∀ q ∈ s.pairs, q ∈ s'.pairs)
    (hmatched : ∀ g, g ≠ i → g ∉ s.linked → s'.Matched g → s.Matched g)
    (hfits : Fits c s' i) : Inv c s' := by
  have hk : ∀ k, k ≠ i → s'.pc k = s.pc k := fun k hk => by rw [hpc, Function.update_of_ne hk]
  have hi : s'.pc i = p := by rw [hpc, Function.update_self]
  have hil : (s.pc i).locked = true := by simp [hin]
  have hout : ∀ k, s'.pc k ≠ .inside := fun k hp => by
    by_cases he : k = i
    · exact hpin (by rw [← hi, ← he, hp])
    · rw [hk k he] at hp
      exact he (h.locked_unique (by simp [hp]) hil)
  exact {
    lock := fun k => by
      by_cases he : k = i
      · rw [he, hi]
        rcases hlock with ⟨h1, h2⟩ | ⟨h1, h2⟩
        · simp [h1, h2, (h.lock i).2 hil]
        · simp [h1, h2]
      · have hkl : ¬ (s.pc k).locked = true := fun hl => he (h.locked_unique hl hil)
        rw [hk k he]
        rcases hlock with ⟨-, h2⟩ | ⟨-, h2⟩
        · rw [h2]
          exact h.lock k
        · simp [h2, hkl]
    placed
    publishing := fun k hp => by
      by_cases he : k = i
      · rw [he] at hp ⊢
        exact publishing (hi.symm.trans hp)
      · rw [hk k he] at hp
        exact absurd (h.locked_unique (by simp [hp]) hil) he
    either
    closed
    inside := fun k hp => absurd hp (hout k)
    outside := fun _ => by rw [hacqs, hsecs, h.inside i hin]
    nodup := by rw [hacqs]; exact h.nodup
    early := fun k hp => by
      by_cases he : k = i
      · rw [he, hi, hearly] at hp
        cases hp
      · rw [hacqs]
        exact h.early k (hk k he ▸ hp)
    worder
    rorder
    senders
    receivers
    init
    fits := fun k => by
      by_cases he : k = i
      · exact he ▸ hfits
      · refine (h.fits k).frame (hk k he) hpairs (fun g hg => ?_) fun g _ hg => ?_
        · obtain ⟨h1, -, h3⟩ := h.apart he (by simp [hin]) hg
          exact ⟨congrFun hitem g, hmatched g h1 h3⟩
        · rw [hk g fun hgi => by simp [hgi, hin] at hg]
          exact hg }

end Inv

/-! ## Critical sections -/

/-- **What a critical section does**: it refuses a call on a closed channel, links the caller, pops
a peer, or takes the blocked receivers (close) or all blocked callers (destroy). -/
theorem State.after_cases (c : Calls ι) (s : State ι) (i : ι) :
    ((c.kind i = .send ∨ c.kind i = .receive ∧ s.ch.witemList = []) ∧ s.ch.closed = true ∧
      s.after c i = { s.goto i (.done Channel.closed) with
        lock := none, secs := s.secs ++ [i] }) ∨
    (c.kind i = .close ∧ s.ch.closed = true ∧
      s.after c i = { s.goto i .finished with lock := none, secs := s.secs ++ [i] }) ∨
    (c.kind i = .send ∧ s.ch.closed = false ∧ s.ch.ritemList = [] ∧
      s.after c i = { s.goto i .publishing with
        ch := { s.ch with witemList := s.ch.witemList ++ [i] }, secs := s.secs ++ [i] }) ∨
    (c.kind i = .receive ∧ s.ch.closed = false ∧ s.ch.witemList = [] ∧
      s.after c i = { s.goto i .publishing with
        ch := { s.ch with ritemList := s.ch.ritemList ++ [i] }, secs := s.secs ++ [i] }) ∨
    (∃ j rest, c.kind i = .send ∧ s.ch.closed = false ∧ s.ch.ritemList = j :: rest ∧
      s.after c i = { s.goto i (.popped j) with
        lock := none, ch := { s.ch with ritemList := rest }, secs := s.secs ++ [i],
        pairs := s.pairs ++ [(i, j)] }) ∨
    (∃ j rest, c.kind i = .receive ∧ s.ch.witemList = j :: rest ∧
      s.after c i = { s.goto i (.popped j) with
        lock := none, ch := { s.ch with witemList := rest }, secs := s.secs ++ [i],
        pairs := s.pairs ++ [(j, i)] }) ∨
    (c.kind i = .close ∧ s.ch.closed = false ∧
      s.after c i = { s.goto i (.marking s.ch.ritemList []) with
        lock := none, ch := { s.ch with ritemList := [], closed := true }, secs := s.secs ++ [i],
        taken := Function.update s.taken i s.ch.ritemList,
        closer := some (i, s.ch.witemList, s.pairs.length) }) ∨
    (∃ items rest, c.kind i = .destroy ∧
      (s.ch.ritemList ≠ [] ∧ items = s.ch.ritemList ∧ rest = s.ch.witemList ∨
        s.ch.ritemList = [] ∧ items = s.ch.witemList ∧ rest = []) ∧
      s.after c i = { s.goto i (.freeing items) with
        lock := none, ch := { s.ch with ritemList := [], witemList := rest, closed := true },
        secs := s.secs ++ [i], taken := Function.update s.taken i items,
        closer := if s.ch.closed then s.closer
          else some (i, s.ch.witemList, s.pairs.length) }) := by
  cases hk : c.kind i with
  | send =>
    cases hc : s.ch.closed with
    | true =>
      exact .inl ⟨.inl rfl, rfl, by
        simp [after, hk, FiberChannel.impl, FiberChannel.sendImpl, hc, goto]⟩
    | false =>
      cases hr : s.ch.ritemList with
      | nil =>
        exact .inr (.inr (.inl ⟨rfl, rfl, rfl, by
          simp [after, hk, FiberChannel.impl, FiberChannel.sendImpl, hc, hr, goto]⟩))
      | cons j rest =>
        exact .inr (.inr (.inr (.inr (.inl ⟨j, rest, rfl, rfl, rfl, by
          simp [after, hk, FiberChannel.impl, FiberChannel.sendImpl, hc, hr, goto, pairOf]⟩))))
  | receive =>
    cases hw : s.ch.witemList with
    | nil =>
      cases hc : s.ch.closed with
      | true =>
        exact .inl ⟨.inr ⟨rfl, rfl⟩, rfl, by
          simp [after, hk, FiberChannel.impl, FiberChannel.receiveImpl, hc, hw, goto]⟩
      | false =>
        exact .inr (.inr (.inr (.inl ⟨rfl, rfl, rfl, by
          simp [after, hk, FiberChannel.impl, FiberChannel.receiveImpl, hc, hw, goto]⟩)))
    | cons j rest =>
      exact .inr (.inr (.inr (.inr (.inr (.inl ⟨j, rest, rfl, rfl, by
        simp [after, hk, FiberChannel.impl, FiberChannel.receiveImpl, hw, goto, pairOf]⟩)))))
  | close =>
    cases hc : s.ch.closed with
    | true =>
      exact .inr (.inl ⟨rfl, rfl, by
        simp [after, hk, FiberChannel.impl, FiberChannel.closeImpl, hc, goto]⟩)
    | false =>
      exact .inr (.inr (.inr (.inr (.inr (.inr (.inl ⟨rfl, rfl, by
        simp [after, hk, FiberChannel.impl, FiberChannel.closeImpl, hc, goto]⟩))))))
  | destroy =>
    refine .inr (.inr (.inr (.inr (.inr (.inr (.inr ?_))))))
    by_cases hr : s.ch.ritemList = []
    · refine ⟨s.ch.witemList, [], rfl, .inr ⟨hr, rfl, rfl⟩, ?_⟩
      by_cases hw : s.ch.witemList = [] <;>
        simp [after, hk, FiberChannel.impl, FiberChannel.destroyImpl, hr, hw, goto]
    · exact ⟨s.ch.ritemList, s.ch.witemList, rfl, .inl ⟨hr, rfl, rfl⟩, by
        simp [after, hk, FiberChannel.impl, FiberChannel.destroyImpl, hr, goto]⟩

namespace Inv

theorem unmatched_inside (h : Inv c s) (hin : s.pc i = .inside) : ¬ s.Matched i := fun hm =>
  h.notMem_secs hin (h.mem_secs_of_matched hm)

theorem goto_pc (p : Pc ι) : (s.goto i p).pc k = if k = i then p else s.pc k := by
  simp [State.goto, Function.update_apply]

/-- The call is refused. -/
theorem refuse (h : Inv c s) (hin : s.pc i = .inside) (p : Pc ι)
    (hp : p = .done Channel.closed ∨ p = .finished) :
    Inv c { s.goto i p with lock := none, secs := s.secs ++ [i] } := by
  have hpl : p.locked = false ∧ p.held = [] ∧ p.blocked = false ∧ p.early = false ∧
      p ≠ .inside ∧ p ≠ .publishing := by
    rcases hp with rfl | rfl <;> simp 
  refine h.critical hin p rfl rfl rfl rfl (.inr ⟨hpl.1, rfl⟩) hpl.2.2.2.2.1 hpl.2.2.2.1 ?_
    (fun hpub => absurd hpub hpl.2.2.2.2.2) h.either h.closed
    (h.worder.trans (List.sublist_append_left _ _)) (h.rorder.trans (List.sublist_append_left _ _))
    h.senders h.receivers h.init (fun _ hq => hq) (fun _ _ _ hm => hm) ?_
  · have hheld : (s.pc i).held = [] := by rw [hin]; rfl
    have hb : (s.pc i).blocked = false := by rw [hin]; rfl
    refine h.placed.shift (fun q => ?_) fun g => ?_
    · cases q with
      | none => exact .refl _
      | some k =>
        by_cases he : k = i
        · simp [State.place, he, goto_pc, hheld, hpl.2.1]
        · simp [State.place, he, goto_pc]
    · by_cases he : g = i
      · simp [he, goto_pc, hb, hpl.2.2.1]
      · simp [he, goto_pc]
  · rcases hp with rfl | rfl
    · rw [Fits, goto_pc, if_pos rfl]
      exact .inr ⟨.inl rfl, h.unmatched_inside hin⟩
    · simp [Fits, goto_pc]

/-- The caller is linked, behind the others of its side. -/
theorem block (h : Inv c s) (hin : s.pc i = .inside) {r w : List ι}
    (hrw : c.kind i = .send ∧ s.ch.ritemList = [] ∧ r = [] ∧ w = s.ch.witemList ++ [i] ∨
      c.kind i = .receive ∧ s.ch.witemList = [] ∧ s.ch.closed = false ∧ w = [] ∧
        r = s.ch.ritemList ++ [i]) (hinit : s.itemState i = itemInit) :
    Inv c { s.goto i .publishing with
      ch := { s.ch with ritemList := r, witemList := w }, secs := s.secs ++ [i] } := by
  have hperm : (r ++ w).Perm (i :: s.linked) := by
    rcases hrw with ⟨-, hr, rfl, rfl⟩ | ⟨-, hw, -, rfl, rfl⟩
    · simp [State.linked, hr]
    · simp [State.linked, hw]
  refine h.critical hin .publishing rfl rfl rfl rfl (.inl ⟨rfl, rfl⟩) (by simp) rfl ?_
    (fun _ => hperm.mem_iff.2 (.head _)) ?_ ?_ ?_ ?_ ?_ ?_ (fun g hg => ?_) (fun _ hq => hq)
    (fun _ _ _ hm => hm) (by simp [Fits, goto_pc])
  · refine h.placed.born (x := i) (p := none) (by simp [hin]) hperm (fun q hq => ?_)
      fun g => ?_
    · obtain ⟨k, rfl⟩ := Option.ne_none_iff_exists'.1 hq
      by_cases he : k = i
      · simp [State.place, he, goto_pc, hin]
      · simp [State.place, he, goto_pc]
    · by_cases he : g = i
      · simp [he, goto_pc]
      · simp [he, goto_pc]
  · rcases hrw with ⟨-, -, rfl, -⟩ | ⟨-, -, -, rfl, -⟩
    · exact .inl rfl
    · exact .inr rfl
  · rcases hrw with ⟨-, -, rfl, -⟩ | ⟨-, -, hc, -⟩
    · exact fun _ => rfl
    · exact fun hc' => by simp [hc] at hc'
  · rcases hrw with ⟨-, -, -, rfl⟩ | ⟨-, hw, -, rfl, -⟩
    · rw [← List.append_assoc]
      exact h.worder.append (.refl _)
    · have := h.worder.trans (List.sublist_append_left _ [i])
      rwa [hw] at this
  · rcases hrw with ⟨-, hr, rfl, -⟩ | ⟨-, -, -, -, rfl⟩
    · have := h.rorder.trans (List.sublist_append_left _ [i])
      rwa [hr] at this
    · rw [← List.append_assoc]
      exact h.rorder.append (.refl _)
  · refine ⟨h.senders.1, fun g hg => ?_⟩
    rcases hrw with ⟨hk, -, -, rfl⟩ | ⟨-, -, -, rfl, -⟩
    · rcases List.mem_append.1 hg with hg | hg
      · exact h.senders.2 g hg
      · rwa [List.mem_singleton.1 hg]
    · simp at hg
  · refine ⟨h.receivers.1, fun g hg => ?_⟩
    rcases hrw with ⟨-, -, rfl, -⟩ | ⟨hk, -, -, -, rfl⟩
    · simp at hg
    · rcases List.mem_append.1 hg with hg | hg
      · exact h.receivers.2 g hg
      · rwa [List.mem_singleton.1 hg]
  · rcases List.mem_cons.1 (hperm.mem_iff.1 hg) with rfl | hg
    · exact hinit
    · exact h.init g hg

/-- A peer of the other side is popped, the first in line. -/
theorem pop (h : Inv c s) (hin : s.pc i = .inside) {rest r w : List ι} {q : ι × ι}
    (hrw : c.kind i = .send ∧ s.ch.closed = false ∧ s.ch.ritemList = j :: rest ∧ r = rest ∧
        w = s.ch.witemList ∧ q = (i, j) ∨
      c.kind i = .receive ∧ s.ch.witemList = j :: rest ∧ r = s.ch.ritemList ∧ w = rest ∧
        q = (j, i)) :
    Inv c { s.goto i (.popped j) with
      lock := none, ch := { s.ch with ritemList := r, witemList := w }, secs := s.secs ++ [i],
      pairs := s.pairs ++ [q] } := by
  have hjl : j ∈ s.linked := by
    rcases hrw with ⟨-, -, hr, -⟩ | ⟨-, hw, -⟩ <;> simp [State.linked, *]
  have hother : c.kind i = .send ∧ s.ch.witemList = [] ∨
      c.kind i = .receive ∧ s.ch.ritemList = [] := by
    rcases hrw with ⟨hk, -, hr, -⟩ | ⟨hk, hw, -⟩
    · exact .inl ⟨hk, h.either.resolve_left (by simp [hr])⟩
    · exact .inr ⟨hk, h.either.resolve_right (by simp [hw])⟩
  have hheld : (s.pc i).held = [] := by rw [hin]; rfl
  have hib : (s.pc i).blocked = false := by rw [hin]; rfl
  refine h.critical hin (.popped j) rfl rfl rfl rfl (.inr ⟨rfl, rfl⟩) (by simp) rfl ?_ (by simp)
    ?_ ?_ ?_ ?_ ?_ ?_ (fun g hg => h.init g ?_) (fun _ hq => List.mem_append_left _ hq)
    (fun g hgi hgl hm => ?_) ?_
  · -- the peer goes from the list to the hands of the caller
    refine h.placed.move (p := none) (q := some i) (by simp) ?_ (fun x hx hxi => ?_) fun g => ?_
    · rcases hrw with ⟨-, -, hr, rfl, rfl, -⟩ | ⟨-, hw, rfl, rfl, -⟩
      · simp only [State.place, State.linked, goto_pc, if_pos, hheld, hr]
        simpa using @List.perm_append_comm _ (r ++ s.ch.witemList) [j]
      · simp only [State.place, State.linked, goto_pc, if_pos, hheld, hw]
        simpa using (@List.perm_append_comm _ w [j]).append_left s.ch.ritemList
    · obtain ⟨k, rfl⟩ := Option.ne_none_iff_exists'.1 hx
      have he : k ≠ i := fun he => hxi (by rw [he])
      simp [State.place, he, goto_pc]
    · by_cases he : g = i
      · simp [he, goto_pc, hib]
      · simp [he, goto_pc]
  · rcases hother with ⟨hk, hw⟩ | ⟨hk, hr⟩
    · rcases hrw with ⟨-, -, -, -, rfl, -⟩ | ⟨hk', -⟩
      · exact .inr hw
      · simp [hk] at hk'
    · rcases hrw with ⟨hk', -⟩ | ⟨-, -, rfl, -⟩
      · simp [hk] at hk'
      · exact .inl hr
  · rcases hrw with ⟨-, hc, -⟩ | ⟨-, -, rfl, -⟩
    · exact fun hc' => by simp [hc] at hc'
    · exact h.closed
  · rcases hrw with ⟨hk, -, hr, -, rfl, rfl⟩ | ⟨hk, hw, -, rfl, rfl⟩
    · have hw := h.either.resolve_left (by simp [hr])
      have := h.worder
      rw [hw, List.append_nil] at this
      simpa [hw] using this.append (.refl [i])
    · have := h.worder.trans (List.sublist_append_left _ [i])
      simpa [hw] using this
  · rcases hrw with ⟨hk, -, hr, rfl, -, rfl⟩ | ⟨hk, hw, rfl, -, rfl⟩
    · have := h.rorder.trans (List.sublist_append_left _ [i])
      simpa [hr] using this
    · have hr := h.either.resolve_right (by simp [hw])
      have := h.rorder
      rw [hr, List.append_nil] at this
      simpa [hr] using this.append (.refl [i])
  · refine ⟨fun x hx => ?_, fun g hg => h.senders.2 g ?_⟩
    · rcases List.mem_append.1 hx with hx | hx
      · exact h.senders.1 x hx
      · obtain rfl := List.mem_singleton.1 hx
        rcases hrw with ⟨hk, -, -, -, -, rfl⟩ | ⟨-, hw, -, -, rfl⟩
        · exact hk
        · exact h.senders.2 j (by simp [hw])
    · rcases hrw with ⟨-, -, -, -, rfl, -⟩ | ⟨-, hw, -, rfl, -⟩
      · exact hg
      · rw [hw]
        exact .tail _ hg
  · refine ⟨fun x hx => ?_, fun g hg => h.receivers.2 g ?_⟩
    · rcases List.mem_append.1 hx with hx | hx
      · exact h.receivers.1 x hx
      · obtain rfl := List.mem_singleton.1 hx
        rcases hrw with ⟨-, -, hr, -, -, rfl⟩ | ⟨hk, -, -, -, rfl⟩
        · exact h.receivers.2 j (by simp [hr])
        · exact hk
    · rcases hrw with ⟨-, -, hr, rfl, -⟩ | ⟨-, -, rfl, -⟩
      · rw [hr]
        exact .tail _ hg
      · exact hg
  · rcases hrw with ⟨-, -, hr, rfl, rfl, -⟩ | ⟨-, hw, rfl, rfl, -⟩ <;>
      simp only [State.linked, List.mem_append, List.mem_cons, *] at hg ⊢ <;> tauto
  · -- the new pair concerns the caller and its peer only
    obtain ⟨k, hk⟩ := hm
    have hgj : g ≠ j := fun he => hgl (he ▸ hjl)
    refine ⟨k, ?_⟩
    rcases hrw with ⟨-, -, -, -, -, rfl⟩ | ⟨-, -, -, -, rfl⟩ <;>
      simpa [State.Paired, hgi, hgj] using hk
  · rw [Fits, goto_pc, if_pos rfl]
    refine ⟨?_, h.init j hjl⟩
    rcases hrw with ⟨-, -, -, -, -, rfl⟩ | ⟨-, -, -, -, rfl⟩ <;> simp [State.Paired]

/-- Close takes the blocked receivers, destroy all blocked callers: never both lists hold items. -/
theorem drain (h : Inv c s) (hin : s.pc i = .inside) {items rest : List ι} {p : Pc ι}
    {taken : ι → List ι} {closer : Option (ι × List ι × Nat)}
    (hp : c.kind i = .close ∧ p = .marking items [] ∨ c.kind i = .destroy ∧ p = .freeing items)
    (htake : items = s.ch.ritemList ∧ rest = s.ch.witemList ∨
      s.ch.ritemList = [] ∧ items = s.ch.witemList ∧ rest = []) :
    Inv c { s.goto i p with
      lock := none, ch := { s.ch with ritemList := [], witemList := rest, closed := true },
      secs := s.secs ++ [i], taken, closer } := by
  have hperm : (rest ++ items).Perm s.linked := by
    rcases htake with ⟨rfl, rfl⟩ | ⟨hr, rfl, rfl⟩
    · exact List.perm_append_comm
    · simp [State.linked, hr]
  have hsub : rest.Sublist s.ch.witemList := by
    rcases htake with ⟨-, rfl⟩ | ⟨-, -, rfl⟩
    · exact .refl _
    · exact List.nil_sublist _
  obtain ⟨hpl, hpi, hpe, hpp, hpb, hph⟩ : p.locked = false ∧ p ≠ .inside ∧ p.early = false ∧
      p ≠ .publishing ∧ p.blocked = false ∧ p.held = items := by
    rcases hp with ⟨-, rfl⟩ | ⟨-, rfl⟩ <;> simp
  have hmem : ∀ {g}, g ∈ items → g ∈ s.linked := fun hg =>
    hperm.mem_iff.1 (List.mem_append_right _ hg)
  refine h.critical hin p rfl rfl rfl rfl (.inr ⟨hpl, rfl⟩) hpi hpe ?_ (fun he => absurd he hpp)
    (.inl rfl) (fun _ => rfl) ?_ ?_ ⟨h.senders.1, fun g hg => h.senders.2 g (hsub.subset hg)⟩
    ⟨h.receivers.1, by simp⟩
    (fun g hg => h.init g (hperm.mem_iff.1 (List.mem_append_left _
      (by simpa [State.linked] using hg)))) (fun _ hq => hq) (fun _ _ _ hm => hm) ?_
  · refine h.placed.move (p := none) (q := some i) (by simp) ?_ (fun x hx hxi => ?_) fun g => ?_
    · simpa [State.place, State.linked, goto_pc, hph, hin] using hperm
    · obtain ⟨k, rfl⟩ := Option.ne_none_iff_exists'.1 hx
      have he : k ≠ i := fun he => hxi (by rw [he])
      simp [State.place, he, goto_pc]
    · by_cases he : g = i
      · simp [he, goto_pc, hin, hpb]
      · simp [he, goto_pc]
  · exact ((List.Sublist.refl _).append hsub).trans
      (h.worder.trans (List.sublist_append_left _ _))
  · have := (List.sublist_append_left _ _).trans
      (h.rorder.trans (List.sublist_append_left _ [i]))
    simpa [State.goto] using this
  · rcases hp with ⟨hk, rfl⟩ | ⟨hk, rfl⟩
    · rw [Fits, goto_pc, if_pos rfl]
      exact ⟨.inl hk, fun g hg => ⟨h.init g (hmem hg), h.unmatched_of_linked (hmem hg)⟩, by simp⟩
    · rw [Fits, goto_pc, if_pos rfl]
      exact ⟨hk, fun g hg => ⟨h.init g (hmem hg), h.unmatched_of_linked (hmem hg)⟩⟩

/-- **A critical section keeps the invariant.** -/
theorem impl (h : Inv c s) (hin : s.pc i = .inside) : Inv c (s.after c i) := by
  have hinit : s.itemState i = itemInit := by
    have := h.fits i
    rwa [Fits, hin] at this
  rcases s.after_cases c i with ⟨-, -, he⟩ | ⟨-, -, he⟩ | ⟨hk, -, hr, he⟩ | ⟨hk, hc, hw, he⟩ |
    ⟨j, rest, hk, hc, hr, he⟩ | ⟨j, rest, hk, hw, he⟩ | ⟨hk, -, he⟩ | ⟨items, rest, hk, ht, he⟩ <;>
    rw [he]
  · exact h.refuse hin _ (.inl rfl)
  · exact h.refuse hin _ (.inr rfl)
  · exact h.block hin (.inl ⟨hk, hr, hr, rfl⟩) hinit
  · exact h.block hin (.inr ⟨hk, hw, hc, hw, rfl⟩) hinit
  · exact h.pop hin (.inl ⟨hk, hc, hr, rfl, rfl, rfl⟩)
  · exact h.pop hin (.inr ⟨hk, hw, rfl, rfl, rfl⟩)
  · exact h.drain hin (.inl ⟨hk, rfl⟩) (.inl ⟨rfl, rfl⟩)
  · refine h.drain hin (.inr ⟨hk, rfl⟩) (ht.imp (fun ht => ht.2) id)

/-! ## Runs -/

/-- The callers' memory and a freed channel's item size are not part of the invariant. -/
theorem env (h : Inv c s) (mem : Memory) (n : Nat) :
    Inv c { s with mem, ch := { s.ch with itemSize := n } } := { h with }

/-- Before the first call. -/
theorem start (c : Calls ι) (mem : Memory) : Inv c (.start c mem) where
  lock i := by simp [State.start]
  placed := by
    refine .empty (fun q => ?_) fun g => by simp [State.start]
    cases q <;> simp [State.place, State.linked, State.start, FiberChannel.create]
  publishing i hp := by simp [State.start] at hp
  either := .inl rfl
  closed _ := rfl
  inside i hp := by simp [State.start] at hp
  outside _ := rfl
  nodup := List.nodup_nil
  early i _ := by simp [State.start]
  worder := .refl _
  rorder := .refl _
  senders := by simp [State.start, FiberChannel.create]
  receivers := by simp [State.start, FiberChannel.create]
  init := by simp [State.linked, State.start, FiberChannel.create]
  fits i := by simp [Fits, State.start]

/-- **Every step keeps the invariant.** -/
theorem step (h : Inv c s) (hs : Step c s s') : Inv c s' := by
  cases hs with
  | call i hpc =>
    refine h.solo i hpc (c.kind i).entry rfl ⟨rfl, rfl, rfl, rfl, rfl, rfl, rfl⟩ ?_
      (fun g hg _ => ?_) ?_
    · cases c.kind i <;> simp [Kind.entry]
    · simp [State.setItem, State.goto, hg]
    · cases hk : c.kind i <;> simp [Fits, State.setItem, State.goto, Kind.entry]
  | test i hpc =>
    have hf := h.fits i
    rw [Fits, hpc] at hf
    cases hc : s.ch.closed with
    | false =>
      simp only [Bool.false_eq_true, if_false]
      refine h.solo i hpc .want rfl ⟨rfl, rfl, rfl, rfl, rfl, rfl, rfl⟩ (by simp)
        (fun _ _ _ => rfl) ?_
      simpa [Fits, State.goto] using hf
    | true =>
      have hm : ¬ s.Matched i := fun hm =>
        h.early i (by simp [hpc]) (h.mem_acqs (h.mem_secs_of_matched hm))
      simp only [if_true]
      refine h.solo i hpc (c.kind i).refused rfl ⟨rfl, rfl, rfl, rfl, rfl, rfl, rfl⟩ ?_
        (fun _ _ _ => rfl) ?_
      · cases c.kind i <;> simp [Kind.refused]
      · simp only [Fits, State.goto, Function.update_self]
        cases c.kind i
        · exact .inr ⟨.inl rfl, hm⟩
        all_goals trivial
  | acquire i hpc hlock => exact h.take hpc hlock _
  | impl i hpc => exact h.impl hpc
  | publish i hpc => exact h.release hpc
  | copy i j hpc =>
    refine h.solo i hpc (.copied j) rfl ⟨rfl, rfl, rfl, rfl, rfl, rfl, rfl⟩ (by simp)
      (fun _ _ _ => rfl) ?_
    have hf := h.fits i
    simp only [Fits, hpc] at hf
    simp only [Fits, State.copy, State.goto, Function.update_self]
    exact hf
  | mark i j hpc =>
    have hf := h.fits i
    simp only [Fits, hpc] at hf
    refine h.solo i hpc (.marked j) rfl ⟨rfl, rfl, rfl, rfl, rfl, rfl, rfl⟩ (by simp)
      (fun g _ hg => ?_) ?_
    · simp only [Pc.held_eq, List.mem_singleton] at hg
      simp [State.setItem, State.goto, hg]
    · simp only [Fits, State.setItem, State.goto, Function.update_self]
      exact ⟨hf.1, trivial⟩
  | switch i j hpc =>
    have hf := h.fits i
    simp only [Fits, hpc] at hf
    have hne : j ≠ i := fun he => by
      have := h.waiting_of_held (g := j) (i := i) (by simp [hpc])
      simp [he, hpc] at this
    refine h.resume .switched (.enqueueing i) (by simp [hpc]) rfl ⟨rfl, rfl, rfl, rfl, rfl, rfl⟩
      (by simp [hpc]) (by simp [hpc]) rfl (by simp) (by simp [hpc]) ?_ ?_
    · simp only [Fits, State.goto, Function.update_self]
      exact ⟨j, hf.1⟩
    · simp only [Fits, State.goto, Function.update_of_ne hne, Function.update_self]
      exact ⟨trivial, hf.1, hf.2⟩
  | enqueue j i hpc =>
    have hf := h.fits j
    simp only [Fits, hpc] at hf
    obtain ⟨hsw, hp, hitem⟩ := hf
    have hne : i ≠ j := fun he => by simp [he, hpc] at hsw
    refine h.two hne .resumed .ready rfl ⟨rfl, rfl, rfl, rfl, rfl, rfl⟩ (by simp [hpc, hsw])
      (by simp) (by simp) ?_ (fun k x h1 h2 hx hxs => ⟨fun he => ?_, fun he => ?_⟩) ?_ ?_
    · refine h.placed.shift (fun q => ?_) fun k => ?_
      · cases q with
        | none => exact .refl _
        | some k =>
          by_cases h1 : k = j
          · simp [State.place, goto_pc, h1, hpc]
          · by_cases h2 : k = i
            · simp [State.place, goto_pc, h2, hne, hsw]
            · simp [State.place, goto_pc, h1, h2]
      · by_cases h1 : k = j
        · simp [goto_pc, h1, hpc]
        · by_cases h2 : k = i
          · simp [goto_pc, h2, hne, hsw]
          · simp [goto_pc, h1, h2]
    · simp [he, hpc] at hxs
    · -- nobody else is about to enqueue `i`
      have hfk := h.fits k
      simp only [Fits, hx] at hfk
      exact h1 (h.paired_unique (he ▸ hfk.2.1) hp)
    · simp only [Fits, State.goto, Function.update_self]
      exact .inl ⟨hitem, i, hp.symm⟩
    · simp only [Fits, State.goto, Function.update_of_ne hne, Function.update_self]
      exact ⟨j, hp⟩
  | ready i hpc =>
    have hf := h.fits i
    simp only [Fits, hpc] at hf
    refine h.solo i hpc (.done success) rfl ⟨rfl, rfl, rfl, rfl, rfl, rfl, rfl⟩ (by simp)
      (fun _ _ _ => rfl) ?_
    simp only [Fits, State.goto, Function.update_self]
    exact .inl ⟨trivial, hf⟩
  | ret i hpc =>
    have hf := h.fits i
    simp only [Fits, hpc] at hf
    refine h.solo i hpc (.done (s.itemState i)) rfl ⟨rfl, rfl, rfl, rfl, rfl, rfl, rfl⟩ (by simp)
      (fun _ _ _ => rfl) ?_
    simp only [Fits, State.goto, Function.update_self]
    exact hf
  | free i items hpc =>
    have hf := h.fits i
    simp only [Fits, hpc] at hf
    refine h.solo i hpc (.marking items []) rfl ⟨rfl, rfl, rfl, rfl, rfl, rfl, rfl⟩ (by simp)
      (fun _ _ _ => rfl) ?_
    simp only [Fits, State.goto, Function.update_self]
    exact ⟨.inr hf.1, hf.2, by simp⟩
  | setState i g todo items hpc =>
    have hf := h.fits i
    simp only [Fits, hpc] at hf
    have hnd := h.placed.nodup (some i)
    simp only [State.place, hpc, Pc.held_eq] at hnd
    have hgt : ∀ k ∈ todo, k ≠ g := by
      rintro k hk rfl
      simp [List.nodup_append, hk] at hnd
    have hgi : ∀ k ∈ items, k ≠ g := by
      rintro k hk rfl
      exact (List.nodup_append.1 hnd).2.2 k hk k (by simp) rfl
    refine h.solo i hpc (.marking todo (items ++ [g])) rfl ⟨rfl, rfl, rfl, rfl, rfl, rfl, rfl⟩
      (by simp) (fun k _ hk => ?_) ?_
    · simp only [Pc.held_eq, List.mem_append, List.mem_cons, not_or] at hk
      simp [State.setItem, State.goto, hk.2.1]
    · simp only [Fits, State.setItem, State.goto, Function.update_self]
      refine ⟨hf.1, fun k hk => ?_, fun k hk => ?_⟩
      · rw [Function.update_of_ne (hgt k hk)]
        exact hf.2.1 k (.tail _ hk)
      · rcases List.mem_append.1 hk with hk | hk
        · rw [Function.update_of_ne (hgi k hk)]
          exact hf.2.2 k hk
        · obtain rfl := List.mem_singleton.1 hk
          exact ⟨Function.update_self .., (hf.2.1 k (.head _)).2⟩
  | enqueueList i items hpc =>
    have hf := h.fits i
    simp only [Fits, hpc] at hf
    refine h.solo i hpc (.waking items) rfl ⟨rfl, rfl, rfl, rfl, rfl, rfl, rfl⟩ (by simp)
      (fun _ _ _ => rfl) ?_
    simp only [Fits, State.goto, Function.update_self]
    exact ⟨hf.1, hf.2.2⟩
  | wake i g items hpc =>
    have hf := h.fits i
    simp only [Fits, hpc] at hf
    have hne : g ≠ i := fun he => by
      have := h.waiting_of_held (g := g) (i := i) (by simp [hpc])
      simp [he, hpc] at this
    refine h.resume (.waking items) .resumed (by simp [hpc]) rfl ⟨rfl, rfl, rfl, rfl, rfl, rfl⟩
      (by simp [hpc]) (by simp [hpc]) rfl (by simp) (by simp [hpc]) ?_ ?_
    · simp only [Fits, State.goto, Function.update_self]
      exact ⟨hf.1, fun k hk => hf.2 k (.tail _ hk)⟩
    · simp only [Fits, State.goto, Function.update_of_ne hne, Function.update_self]
      obtain ⟨h1, h2⟩ := hf.2 g (.head _)
      refine .inr ⟨?_, h2⟩
      rw [h1]
      rcases hf.1 with hk | hk
      · exact .inl (by rw [hk]; rfl)
      · exact .inr (by rw [hk]; rfl)
  | woken i hpc =>
    refine h.solo i hpc .finished rfl ⟨rfl, rfl, rfl, rfl, rfl, rfl, rfl⟩ (by simp)
      (fun _ _ _ => rfl) ?_
    simp only [Fits, State.goto, Function.update_self]
  | user mem => exact h.env mem s.ch.itemSize
  | reuse n => exact h.env s.mem n

end Inv

theorem Reached.inv (h : Reached c s) : Inv c s :=
  h.invariant (by rintro _ ⟨mem, rfl⟩; exact .start c mem) fun _ _ => Inv.step

end Channel
