import FjxFiber.Lib.MonitorSection

/-!
# Guarded objects, for the programs that use them

A program makes its calls itself, and in between the calls that have been made go on (`Internal`).
What it sees of them is the place of each call: its section is still to run, or it is linked in the
object, or neither. `Internal.seen`: such a step is unseen, or is one section in one go.

As long as nobody destroys the object (`Calm`), every step of a call brings it nearer to its return
(`Internal.rank`), and a call that cannot go on is linked in the object (`stuck`).
-/

set_option autoImplicit false

namespace Lib.Monitor

variable {F Op O : Type*} [DecidableEq F] {M : Spec F Op O} {s s' : State F Op O} {f g : F}
  {op : Op}

/-! ## Calls and their places -/

/-- A step of a call that has been made. -/
def Internal (M : Spec F Op O) (s s' : State F Op O) : Prop :=
  Step M s s' ∧ ∀ f, s.pc f = .idle → s'.pc f = .idle

/-- What a caller's program sees of its call. -/
inductive Place (Op : Type*)
  /-- The section is still to run. -/
  | ahead (op : Op)
  /-- The caller is linked in the object. -/
  | queued (op : Op)
  | through
  deriving DecidableEq, Repr

def State.place (M : Spec F Op O) (s : State F Op O) (f : F) : Place Op :=
  match s.pc f with
  | .want op | .inside op => .ahead op
  | .publishing op | .waiting op => if f ∈ M.waiters s.obj then .queued op else .through
  | _ => .through

theorem place_of_idle (h : s.pc f = .idle) : s.place M f = .through := by
  simp [State.place, h]

/-- A call that changes neither its own point nor the waiters stays where it is. -/
theorem place_congr (hpc : s'.pc f = s.pc f) (hw : f ∈ M.waiters s'.obj ↔ f ∈ M.waiters s.obj) :
    s'.place M f = s.place M f := by
  unfold State.place
  rw [hpc]
  simp only [hw]

theorem pending_of_place (h : s.place M f = .ahead op) : Pending s f op := by
  unfold State.place at h
  split at h
  · next hp => exact .inl (by rw [hp, Place.ahead.inj h])
  · next hp => exact .inr (by rw [hp, Place.ahead.inj h])
  · split at h <;> cases h
  · split at h <;> cases h
  · cases h

/-- The places after a call has been made. -/
theorem place_call :
    (s.at f (.want op)).place M g = if g = f then .ahead op else s.place M g := by
  by_cases hg : g = f
  · simp [State.place, hg]
  · rw [if_neg hg]
    exact place_congr (by simp [at_pc, hg]) Iff.rfl

/-- Who is in somebody's hands is not linked. -/
theorem Inv.place_of_held (h : Inv M s) (hg : g ∈ (s.pc f).held) : s.place M g = .through := by
  obtain ⟨op, hw⟩ := h.waiting_of_held hg
  have hn : g ∉ M.waiters s.obj := fun hq => by
    cases h.placed.place_unique (p := some f) (q := none) hg hq
  simp [State.place, hw, hn]

theorem Inv.mem_waiters (h : Inv M s) : g ∈ M.waiters s.obj ↔ ∃ op, s.place M g = .queued op := by
  constructor
  · intro hg
    have hq : g ∈ places M s none := hg
    have hb : (s.pc g).blocked = true := h.placed.live_of_mem hq
    unfold State.place
    cases hp : s.pc g with
    | publishing op => exact ⟨op, if_pos hg⟩
    | waiting op => exact ⟨op, if_pos hg⟩
    | _ => simp [hp, Pc.blocked] at hb
  · rintro ⟨op, hp⟩
    unfold State.place at hp
    by_contra hn
    split at hp <;> simp [hn] at hp

omit [DecidableEq F] in
/-- The waiters that a section leaves. -/
theorem Spec.Lawful.mem_sec (hM : M.Lawful) {o : O} (hnd : (M.waiters o).Nodup) (hg : g ≠ f) :
    g ∈ M.waiters (M.sec op f o).1 ↔ g ∈ M.waiters o ∧ g ∉ (M.sec op f o).2.taken := by
  cases hout : (M.sec op f o).2 with
  | ret => simp [hM.ret op f o hout, Outcome.taken]
  | block => simp [(hM.block op f o hout).1, Outcome.taken, hg]
  | wake x =>
    have hw := hM.wake op f o x hout
    rw [hw, List.nodup_cons] at hnd
    simp only [hw, Outcome.taken, List.mem_cons, List.not_mem_nil, or_false]
    constructor
    · intro h
      exact ⟨.inr h, fun he => hnd.1 (he ▸ h)⟩
    · rintro ⟨h | h, hn⟩
      · exact absurd h hn
      · exact h
  | drain l =>
    have hw := hM.drain op f o l hout
    rw [hw, List.nodup_append] at hnd
    simp only [hw, Outcome.taken, List.mem_append]
    constructor
    · intro h
      exact ⟨.inr h, fun hl => hnd.2.2 g hl g h rfl⟩
    · rintro ⟨h | h, hn⟩
      · exact absurd h hn
      · exact h

/-- The program sees that `f` has run the section of `op`. -/
structure Sees (M : Spec F Op O) (f : F) (op : Op) (s s' : State F Op O) : Prop where
  before : s.place M f = .ahead op
  obj : s'.obj = (M.sec op f s.obj).1
  self : s'.place M f = if (M.sec op f s.obj).2.blocks then .queued op else .through
  other : ∀ g, g ≠ f →
    s'.place M g = if g ∈ (M.sec op f s.obj).2.taken then .through else s.place M g

/-- `f` goes from one point to another, and nothing is seen of it. -/
theorem place_at {p : Pc F Op} (hobj : s'.obj = s.obj) (hpc : s'.pc = (s.at f p).pc)
    (hp : s'.place M f = s.place M f) (g : F) : s'.place M g = s.place M g := by
  by_cases hg : g = f
  · rw [hg, hp]
  · exact place_congr (by rw [hpc, at_pc, if_neg hg]) (by rw [hobj])

/-- `f` resumes a waiter, and nothing is seen of it. -/
theorem Inv.place_resume (h : Inv M s) {p : Pc F Op} (hobj : s'.obj = s.obj)
    (hpc : s'.pc = ((s.at g .runnable).at f p).pc) (hg : g ∈ (s.pc f).held)
    (hp : s'.place M f = s.place M f) (x : F) : s'.place M x = s.place M x := by
  by_cases hxf : x = f
  · rw [hxf, hp]
  by_cases hxg : x = g
  · subst hxg
    rw [h.place_of_held hg]
    simp [State.place, hpc, at_pc, hxf]
  · exact place_congr (by simp [hpc, at_pc, hxf, hxg]) (by rw [hobj])

/-- **What is seen of a step**: nothing, or one section. -/
theorem Internal.seen (hM : M.Lawful) (h : Inv M s) (hs : Internal M s s') :
    s'.obj = s.obj ∧ (∀ g, s'.place M g = s.place M g) ∨ ∃ f op, Sees M f op s s' := by
  obtain ⟨hs, hidle⟩ := hs
  cases hs with
  | call f op hpc =>
    have hi := hidle f hpc
    rw [at_pc_self] at hi
    cases hi
  | acquire f op hpc =>
    exact .inl ⟨rfl, place_at rfl rfl (by simp [State.place, hpc])⟩
  | critical f op hpc =>
    right
    refine ⟨f, op, by simp [State.place, hpc], after_obj, ?_, fun g hg => ?_⟩
    · unfold State.place
      rw [after_pc_self, after_obj]
      cases hout : (M.sec op f s.obj).2 with
      | block => simp [(hM.block op f s.obj hout).1, Outcome.blocks]
      | _ => simp [Outcome.blocks]
    · have hmem : g ∈ M.waiters (M.sec op f s.obj).1 ↔ _ := hM.mem_sec (h.placed.nodup none) hg
      by_cases ht : g ∈ (M.sec op f s.obj).2.taken
      · obtain ⟨op', hp⟩ := h.mem_waiters.1 (hM.taken ht)
        rw [if_pos ht]
        unfold State.place at hp ⊢
        rw [after_pc_ne hg, after_obj]
        split at hp <;> simp [hmem, ht] at hp ⊢
      · rw [if_neg ht]
        exact place_congr (after_pc_ne hg) (by rw [after_obj, hmem]; simp [ht])
  | publish f op hpc =>
    refine .inl ⟨rfl, place_at rfl rfl ?_⟩
    unfold State.place
    simp only [at_pc_self, hpc]
    rfl
  | @hand f g hpc =>
    exact .inl ⟨rfl, h.place_resume rfl rfl (by simp [hpc, Pc.held]) (by simp [State.place, hpc])⟩
  | @free f gs hpc => exact .inl ⟨rfl, place_at rfl rfl (by simp [State.place, hpc])⟩
  | @wake f g gs hpc =>
    exact .inl ⟨rfl, h.place_resume rfl rfl (by simp [hpc, Pc.held]) (by simp [State.place, hpc])⟩
  | @woken f hpc => exact .inl ⟨rfl, place_at rfl rfl (by simp [State.place, hpc])⟩
  | @resume f hpc => exact .inl ⟨rfl, place_at rfl rfl (by simp [State.place, hpc])⟩

/-! ## Objects that are not destroyed -/

/-- Nobody has destroyed the object, or is about to. -/
structure Calm (M : Spec F Op O) (s : State F Op O) : Prop where
  closing : s.closing = false
  hands : ∀ f gs, s.pc f ≠ .freeing gs ∧ s.pc f ≠ .waking gs
  ops : ∀ f op, Pending s f op → M.closes op = false

/-- How near a call is to its return. -/
def Pc.rank : Pc F Op → Nat
  | .freeing _ | .waking _ => 0
  | .want _ => 1
  | .inside _ => 2
  | .publishing _ => 3
  | .waiting _ => 4
  | .handing _ | .runnable => 5
  | .idle => 6

omit [DecidableEq F] in
theorem Pc.rank_le (p : Pc F Op) : p.rank ≤ 6 := by
  cases p <;> simp [rank]

omit [DecidableEq F] in
theorem Calm.start {o : O} : Calm M (.start o) where
  closing := rfl
  hands f gs := ⟨by simp [State.start], by simp [State.start]⟩
  ops f op h := by simp [Pending, State.start] at h

theorem Calm.call (h : Calm M s) (hop : M.closes op = false) : Calm M (s.at f (.want op)) where
  closing := h.closing
  hands g gs := by
    rw [at_pc]
    split
    · exact ⟨by simp, by simp⟩
    · exact h.hands g gs
  ops g op' hp := by
    unfold Pending at hp
    rw [at_pc] at hp
    split at hp
    · obtain rfl : op' = op := by simpa [eq_comm] using hp
      exact hop
    · exact h.ops g op' hp

omit [DecidableEq F] in
/-- A section that does not destroy the object does not drain it. -/
theorem Calm.not_drain (hM : M.Lawful) (h : Calm M s) (hpc : s.pc f = .inside op) (gs : List F) :
    (M.sec op f s.obj).2 ≠ .drain gs := by
  intro hd
  have hc := (hM.closes op f s.obj).2 ⟨gs, hd⟩
  rw [h.ops f op (.inr hpc)] at hc
  cases hc

/-- The points past the section of a call that does not destroy. -/
def Pc.past : Pc F Op → Bool
  | .want _ | .inside _ | .freeing _ | .waking _ => false
  | _ => true

/-- `f` goes on past its section. -/
theorem Calm.move {p : Pc F Op} (h : Calm M s) (hcl : s'.closing = s.closing)
    (hpc : s'.pc = (s.at f p).pc) (hp : p.past = true) : Calm M s' := by
  refine ⟨hcl.trans h.closing, fun g gs => ?_, fun g op hg => ?_⟩
  · rw [hpc, at_pc]
    split
    · cases p <;> simp [Pc.past] at hp ⊢
    · exact h.hands g gs
  · unfold Pending at hg
    rw [hpc, at_pc] at hg
    split at hg
    · rcases hg with rfl | rfl <;> cases hp
    · exact h.ops g op hg

theorem Calm.internal (hM : M.Lawful) (h : Calm M s) (hs : Internal M s s') : Calm M s' := by
  obtain ⟨hs, hidle⟩ := hs
  cases hs with
  | call f op hpc =>
    have hi := hidle f hpc
    rw [at_pc_self] at hi
    cases hi
  | acquire f op hpc =>
    have hop := h.ops f op (.inl hpc)
    refine ⟨hop, fun g gs => ?_, fun g op' hp => ?_⟩
    · simp only [at_pc]
      split
      · exact ⟨by simp, by simp⟩
      · exact h.hands g gs
    · simp only [Pending, at_pc] at hp
      split at hp
      · obtain rfl : op' = op := by simpa [eq_comm] using hp
        exact hop
      · exact h.ops g op' hp
  | critical f op hpc =>
    have hnd := h.not_drain hM hpc
    unfold State.after
    cases hout : (M.sec op f s.obj).2 with
    | drain gs => exact absurd hout (hnd gs)
    | _ => exact h.move (f := f) rfl rfl rfl
  | publish f op hpc => exact h.move (f := f) rfl rfl rfl
  | @hand f g hpc =>
    have hg : Calm M (s.at g .runnable) := h.move (f := g) rfl rfl rfl
    exact hg.move (f := f) rfl rfl rfl
  | @free f gs hpc => exact absurd hpc (h.hands f gs).1
  | @wake f g gs hpc => exact absurd hpc (h.hands f _).2
  | @woken f hpc => exact absurd hpc (h.hands f _).2
  | @resume f hpc => exact h.move (f := f) rfl rfl rfl

/-- One call has moved on. -/
theorem rank_at {p : Pc F Op} (hpc : s'.pc = (s.at f p).pc) (hp : (s.pc f).rank < p.rank) :
    (∀ g, (s.pc g).rank ≤ (s'.pc g).rank) ∧ ∃ g, (s.pc g).rank < (s'.pc g).rank := by
  refine ⟨fun g => ?_, f, by rw [hpc, at_pc_self]; exact hp⟩
  by_cases hg : g = f
  · rw [hpc, hg, at_pc_self]
    omega
  · exact Nat.le_of_eq (by rw [hpc, at_pc, if_neg hg])

/-- **Every step of a call brings it nearer to its return**, and takes no other call back. -/
theorem Internal.rank (hM : M.Lawful) (h : Inv M s) (hc : Calm M s) (hs : Internal M s s') :
    (∀ g, (s.pc g).rank ≤ (s'.pc g).rank) ∧ ∃ g, (s.pc g).rank < (s'.pc g).rank := by
  obtain ⟨hs, hidle⟩ := hs
  cases hs with
  | call f op hpc =>
    have hi := hidle f hpc
    rw [at_pc_self] at hi
    cases hi
  | acquire f op hpc => exact rank_at (f := f) rfl (by simp [hpc, Pc.rank])
  | critical f op hpc =>
    have hnd := hc.not_drain hM hpc
    unfold State.after
    cases hout : (M.sec op f s.obj).2 with
    | drain gs => exact absurd hout (hnd gs)
    | _ => exact rank_at (f := f) rfl (by simp [hpc, Pc.rank])
  | publish f op hpc => exact rank_at (f := f) rfl (by simp [hpc, Pc.rank])
  | @hand f g hpc =>
    obtain ⟨op, hg⟩ := h.waiting_of_held (f := f) (g := g) (by simp [hpc, Pc.held])
    have hgf : g ≠ f := by
      intro he
      rw [he, hpc] at hg
      cases hg
    refine ⟨fun x => ?_, f, by simp [hpc, Pc.rank]⟩
    by_cases hx : x = f
    · simp [hx, hpc, Pc.rank]
    by_cases hxg : x = g
    · simp [at_pc, hxg, hgf, hg, Pc.rank]
    · simp [at_pc, hx, hxg]
  | @free f gs hpc => exact absurd hpc (hc.hands f gs).1
  | @wake f g gs hpc => exact absurd hpc (hc.hands f _).2
  | @woken f hpc => exact absurd hpc (hc.hands f _).2
  | @resume f hpc => exact rank_at (f := f) rfl (by simp [hpc, Pc.rank])

theorem Internal.of_at {p : Pc F Op} (hs : Step M s s') (hpc : s'.pc = (s.at f p).pc)
    (hf : s.pc f ≠ .idle) : Internal M s s' := by
  refine ⟨hs, fun g hg => ?_⟩
  rw [hpc, at_pc, if_neg (by rintro rfl; exact hf hg), hg]

/-- **What a call waits for.** When no step of a call is possible, every call that has been made has
returned, or is linked in the object. -/
theorem stuck (h : Inv M s) (hc : Calm M s) (hno : ∀ s', ¬ Internal M s s')
    (f : F) : s.pc f = .idle ∨ ∃ op, s.place M f = .queued op := by
  have hinside : ∀ g op, s.pc g ≠ .inside op := fun g op hg => by
    refine hno _ ⟨.critical g op hg, fun x hx => ?_⟩
    have hxg : x ≠ g := by
      rintro rfl
      rw [hg] at hx
      cases hx
    rw [after_pc_ne hxg, hx]
  have hpublishing : ∀ g op, s.pc g ≠ .publishing op := fun g op hg =>
    hno _ (.of_at (.publish g op hg) rfl (by simp [hg]))
  have hhanding : ∀ g x, s.pc g ≠ .handing x := fun g x hg => by
    obtain ⟨op, hx⟩ := h.waiting_of_held (f := g) (g := x) (by simp [hg, Pc.held])
    refine hno _ ⟨.hand hg, fun y hy => ?_⟩
    have hyx : y ≠ x := by
      rintro rfl
      rw [hx] at hy
      cases hy
    by_cases hyg : y = g
    · simp [hyg]
    · simp [at_pc, hyg, hyx, hy]
  cases hp : s.pc f with
  | idle => exact .inl rfl
  | want op =>
    cases hl : s.lock with
    | none => exact absurd (.of_at (.acquire f op hp hl hc.closing) rfl (by simp [hp])) (hno _)
    | some g =>
      -- who holds the lock goes on
      have hg := (h.lock g).1 hl
      cases hgp : s.pc g with
      | inside op' => exact absurd hgp (hinside g op')
      | publishing op' => exact absurd hgp (hpublishing g op')
      | _ => simp [hgp, Pc.locked] at hg
  | inside op => exact absurd hp (hinside f op)
  | publishing op => exact absurd hp (hpublishing f op)
  | waiting op =>
    obtain ⟨q, hq⟩ := h.placed.exists_place (a := f) (by simp [hp, Pc.blocked])
    cases q with
    | none => exact .inr (h.mem_waiters.1 hq)
    | some g =>
      have hq : f ∈ (s.pc g).held := hq
      cases hgp : s.pc g with
      | handing x => exact absurd hgp (hhanding g x)
      | freeing gs => exact absurd hgp (hc.hands g gs).1
      | waking gs => exact absurd hgp (hc.hands g gs).2
      | _ => simp [hgp, Pc.held] at hq
  | handing x => exact absurd hp (hhanding f x)
  | freeing gs => exact absurd hp (hc.hands f gs).1
  | waking gs => exact absurd hp (hc.hands f gs).2
  | runnable => exact absurd (.of_at (.resume hp) rfl (by simp [hp])) (hno _)

/-! ## The calls of a program -/

/-- The object of a program that destroys nothing; `busy` are the callers that are in a call. -/
structure Client (M : Spec F Op O) (o : O) (busy : F → Bool) (s : State F Op O) : Prop where
  reach : Reach M o s
  calm : Calm M s
  idle : ∀ f, busy f = false → s.pc f = .idle

namespace Client

variable {o : O} {busy busy' : F → Bool}

theorem start : Client M o busy (.start o) :=
  ⟨.start rfl, .start, fun _ _ => rfl⟩

/-- The program makes a call. -/
theorem call (h : Client M o busy s) (hf : s.pc f = .idle) (hmay : M.may s.obj f op)
    (hop : M.closes op = false) (hbusy : busy' f = true) (hother : ∀ g, g ≠ f → busy' g = busy g) :
    Client M o busy' (s.at f (.want op)) := by
  refine ⟨h.reach.next (.call f op hf h.calm.closing hmay), h.calm.call hop, fun g hg => ?_⟩
  have hgf : g ≠ f := by
    rintro rfl
    rw [hbusy] at hg
    cases hg
  rw [at_pc, if_neg hgf]
  exact h.idle g (by rw [← hother g hgf]; exact hg)

/-- A caller has gone on. -/
theorem stay (h : Client M o busy s) (hf : s.pc f = .idle)
    (hother : ∀ g, g ≠ f → busy' g = busy g) : Client M o busy' s := by
  refine ⟨h.reach, h.calm, fun g hg => ?_⟩
  by_cases hgf : g = f
  · rw [hgf, hf]
  · exact h.idle g (by rw [← hother g hgf]; exact hg)

theorem internal (hM : M.Lawful) (h : Client M o busy s) (hs : Internal M s s') :
    Client M o busy s' :=
  ⟨h.reach.next hs.1, h.calm.internal hM hs, fun g hg => hs.2 g (h.idle g hg)⟩

end Client

end Lib.Monitor
