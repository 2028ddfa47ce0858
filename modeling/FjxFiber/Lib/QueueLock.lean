import FjxFiber.Lib.FairRun
import FjxFiber.Lib.FifoLock
import FjxFiber.Lib.NodeQueue

/-!
# Programs with nodes on their stacks as locks

What is seen of a `StackNodes` program that is a lock: a call asks when it takes its place in the
queue, it is granted the lock where the program says so (`enters`), and the lock is released by the
accesses that `Face.releases` names. `Face.refines`: such a program is the first-come, first-served
lock of `FifoLock` if nobody holds the lock when a call is granted it, and that call is the first
one of those that wait (`Face.Grants`).

In a fair run of such a lock every call that has taken its place is granted the lock, if only some
call always is as long as one waits (`Face.served`).
-/

set_option autoImplicit false

namespace Lib.StackNodes

open FifoLock (Event)

variable {ι A N P : Type*} [DecidableEq ι] [DecidableEq A]

/-- Where a thread has the lock, and with which access it releases it. -/
structure Face (M : Program ι A N P) where
  Holds : P → Prop
  releases : P → Bool
  out : ¬ Holds M.out
  enter : ∀ r, ¬ Holds (M.enter r)
  exchanges : ∀ p, M.exchanges p = true → (M.node p).isSome ∧ M.enters p = false ∧
    releases p = false
  enters : ∀ p, M.enters p = true → (M.node p).isSome
  enter_holds : ∀ p x, M.code p = some x → M.enters p = true → ∀ n, Holds (x.act n).2
  release_holds : ∀ p x, M.code p = some x → M.enters p = false → releases p = true →
    Holds p ∧ ∀ n, (x.act n).2 = M.out
  stay : ∀ p x, M.code p = some x → M.enters p = false → releases p = false → ∀ n,
    Holds (x.act n).2 ↔ Holds p

namespace Face

variable {M : Program ι A N P} (V : Face M)

/-- What is seen of the next access of the thread `t` at `p`. -/
def event (t : ι) (p : P) : List (Event ι) :=
  if M.exchanges p then [.ask t]
  else if M.enters p then [.grant t]
  else if V.releases p then [.release t]
  else []

/-- The steps of the program, with what is seen of them. -/
inductive Step : State ι A N P → List (Event ι) → State ι A N P → Prop
  | call {s t} (a : A) (ht : s.pc t = M.out) (ha : M.Free s a) :
      Step s [] { s with
        pc := Function.update s.pc t (M.enter ⟨t, s.calls, a⟩), calls := s.calls + 1 }
  | access {s s' t} (h : M.move s t = some s') : Step s (V.event t (s.pc t)) s'
  | other {s} (a : A) (n : N) (ha : M.Free s a) :
      Step s [] { s with mem := Function.update s.mem a n }

variable {V} {s s' : State ι A N P} {l : List (Event ι)}

theorem Step.plain (h : V.Step s l s') : M.Step s s' := by
  cases h with
  | call a ht ha => exact .call a ht ha
  | access h => exact .access h
  | other a n ha => exact .other a n ha

theorem exists_step (h : M.Step s s') : ∃ l, V.Step s l s' := by
  cases h with
  | call a ht ha => exact ⟨_, .call a ht ha⟩
  | access h => exact ⟨_, .access h⟩
  | other a n ha => exact ⟨_, .other a n ha⟩

variable (V)

/-- What the invariant of a lock has to say. -/
structure Grants (s : State ι A N P) : Prop where
  live : Live M s
  one : ∀ t u, V.Holds (s.pc t) → V.Holds (s.pc u) → t = u
  free : ∀ t u, M.enters (s.pc t) = true → ¬ V.Holds (s.pc u)
  first : ∀ t mm, M.enters (s.pc t) = true → M.node (s.pc t) = some mm →
    ∃ r, s.exchanged = s.entered ++ mm :: r

/-- The lock that a state stands for: the thread that has it owns it, and the calls wait that have
taken a place in the queue and not got the lock. -/
structure Stands (s : State ι A N P) (a : FifoLock.State ι) : Prop where
  owner : ∀ t, a.owner = some t ↔ V.Holds (s.pc t)
  waiting : ∃ r, s.exchanged = s.entered ++ r ∧ a.waiting = r.map Ref.thread

variable {V} {a : FifoLock.State ι}

omit [DecidableEq ι] [DecidableEq A] in
theorem Stands.start (lock : N) (mem : A → N) : V.Stands (M.start lock mem) FifoLock.start where
  owner t := by
    unfold FifoLock.start
    exact iff_of_false (by simp) V.out
  waiting := ⟨[], rfl, rfl⟩

omit [DecidableEq A] in
/-- Nobody gets the lock or releases it. -/
theorem owner_stay {t : ι} {p : P} (h : ∀ u, a.owner = some u ↔ V.Holds (s.pc u))
    (hp : V.Holds p ↔ V.Holds (s.pc t)) (u : ι) :
    a.owner = some u ↔ V.Holds (Function.update s.pc t p u) := by
  rw [h]
  by_cases hu : u = t
  · rw [hu, Function.update_self, hp]
  · rw [Function.update_of_ne hu]

/-- **What is seen of an access is what the lock may do.** -/
theorem Stands.access {t : ι} (hg : V.Grants s) (h : V.Stands s a) (hm : M.move s t = some s') :
    ∃ a', readAll FifoLock.read a (V.event t (s.pc t)) = some a' ∧ V.Stands s' a' := by
  obtain ⟨x, n, hx, hn, rfl⟩ := M.move_eq_some.1 hm
  have hthread : ∀ mm, M.node (s.pc t) = some mm → mm.thread = t :=
    fun mm hmm => (hg.live.own t mm hmm).1
  unfold event Program.perform
  by_cases hex : M.exchanges (s.pc t) = true
  · -- the call asks
    obtain ⟨hnode, hen, hre⟩ := V.exchanges _ hex
    obtain ⟨mm, hmm⟩ := Option.isSome_iff_exists.1 hnode
    obtain ⟨ho, r, hr, hw⟩ := h
    rw [if_pos hex]
    refine ⟨{ a with waiting := a.waiting ++ [t] }, rfl, ?_, r ++ [mm], ?_, ?_⟩
    · exact owner_stay ho (V.stay _ x hx hen hre n)
    · simp [hex, hen, hmm, hr]
    · simp [hw, hthread mm hmm]
  by_cases hen : M.enters (s.pc t) = true
  · -- the first one that waits is granted the lock
    obtain ⟨mm, hmm⟩ := Option.isSome_iff_exists.1 (V.enters _ hen)
    obtain ⟨r, hr⟩ := hg.first t mm hen hmm
    obtain ⟨ho, r', hr', hw⟩ := h
    obtain rfl : r' = mm :: r := List.append_cancel_left (hr'.symm.trans hr)
    rw [List.map_cons, hthread mm hmm] at hw
    have hnone : a.owner = none := by
      rw [Option.eq_none_iff_forall_ne_some]
      intro u hu
      exact hg.free t u hen ((ho u).1 hu)
    rw [if_neg hex, if_pos hen]
    refine ⟨{ owner := some t, waiting := r.map Ref.thread }, ?_, ?_, r, ?_, rfl⟩
    · simp [FifoLock.read_grant.2 ⟨hnone, _, hw, rfl⟩]
    · intro u
      by_cases hu : u = t
      · simp [hu, V.enter_holds _ x hx hen n]
      · simp [hu, Ne.symm hu, hg.free t u hen]
    · simp [hex, hen, hmm, hr]
  have hen' : M.enters (s.pc t) = false := by simpa using hen
  by_cases hre : V.releases (s.pc t) = true
  · -- the thread that has the lock releases it
    obtain ⟨hold, hout⟩ := V.release_holds _ x hx hen' hre
    obtain ⟨ho, r, hr, hw⟩ := h
    rw [if_neg hex, if_neg hen, if_pos hre]
    refine ⟨{ a with owner := none }, ?_, ?_, r, ?_, hw⟩
    · simp [FifoLock.read_release.2 ⟨(ho t).2 hold, rfl⟩]
    · intro u
      refine iff_of_false (by simp) ?_
      intro hu
      dsimp only at hu
      by_cases hut : u = t
      · rw [hut, Function.update_self, hout] at hu
        exact V.out hu
      · rw [Function.update_of_ne hut] at hu
        exact hut (hg.one u t hu hold)
    · simp [hex, hen, hr]
  · -- nothing is seen
    obtain ⟨ho, r, hr, hw⟩ := h
    rw [if_neg hex, if_neg hen, if_neg hre]
    refine ⟨a, rfl, ?_, r, ?_, hw⟩
    · exact owner_stay ho (V.stay _ x hx hen' (by simpa using hre) n)
    · simp [hex, hen, hr]

theorem Stands.step (hg : V.Grants s) (h : V.Stands s a) (hs : V.Step s l s') :
    ∃ a', readAll FifoLock.read a l = some a' ∧ V.Stands s' a' := by
  cases hs with
  | @call t b ht ha =>
    refine ⟨a, rfl, owner_stay h.owner ?_, h.waiting⟩
    rw [ht]
    exact iff_of_false (V.enter _) V.out
  | access hm => exact h.access hg hm
  | other b n ha => exact ⟨a, rfl, h.owner, h.waiting⟩

/-- **The program is a first-come, first-served lock.** -/
theorem refines {init : State ι A N P → Prop} (hinit : ∀ s, init s → ∃ n mem, s = M.start n mem)
    (hg : ∀ s, Reachable init M.Step s → V.Grants s) (h : Traced init V.Step l s) :
    ∃ a, readAll FifoLock.read FifoLock.start l = some a ∧ V.Stands s a := by
  refine h.refines (R := V.Stands) (I := V.Grants) ?_ ?_ ?_
  · intro l s hl
    exact hg s (hl.reachable fun _ _ _ hs => hs.plain)
  · intro s hs
    obtain ⟨n, mem, rfl⟩ := hinit s hs
    exact .start n mem
  · intro s l s' a hI hR hs
    exact hR.step hI hs

theorem traced_moves {init : State ι A N P → Prop} {ts : List ι} (h : Traced init V.Step l s)
    (hm : M.moves s ts = some s') : ∃ l', Traced init V.Step l' s' := by
  induction ts generalizing s l with
  | nil =>
    obtain rfl := Option.some.inj hm
    exact ⟨l, h⟩
  | cons t ts ih =>
    obtain ⟨s₁, h₁, hm⟩ := Option.bind_eq_some_iff.1 hm
    exact ih (h.next (.access h₁)) hm

end Face

/-! ## Fair runs -/

/-- The steps of the program, with the thread that does the access. -/
inductive Program.Turn (M : Program ι A N P) : State ι A N P → Option ι → State ι A N P → Prop
  | call {s t} (a : A) (ht : s.pc t = M.out) (ha : M.Free s a) :
      Turn M s none { s with
        pc := Function.update s.pc t (M.enter ⟨t, s.calls, a⟩), calls := s.calls + 1 }
  | access {s s' t} (h : M.move s t = some s') : Turn M s (some t) s'
  | other {s} (a : A) (n : N) (ha : M.Free s a) :
      Turn M s none { s with mem := Function.update s.mem a n }

/-- The thread is in a call, or has the lock. -/
def Program.Busy (M : Program ι A N P) (s : State ι A N P) (t : ι) : Prop := s.pc t ≠ M.out

/-- The infinite runs in which every thread goes on until it is between two calls. -/
abbrev Program.Fair (M : Program ι A N P) := FairRun M.Turn M.Busy

variable {M : Program ι A N P} {s s' : State ι A N P}

/-- Accesses after which every thread is between two calls begin a fair run. -/
theorem Program.fair_moves {init : State ι A N P → Prop} {ts : List ι}
    (h : Reachable init M.Step s) (hm : M.moves s ts = some s') (a : A) (ha : M.Free s' a)
    (hout : ∀ t, s'.pc t = M.out) :
    ∃ ρ : M.Fair, ρ.state 0 = s ∧ Reachable init M.Step (ρ.state 0) := by
  have hidle : M.Turn s' none s' := by
    have hs := Turn.other a (s'.mem a) ha
    rwa [Function.update_eq_self] at hs
  obtain ⟨ρ, hρ⟩ : ∃ ρ : M.Fair, ρ.state 0 = s :=
    FairRun.of_moves (fun _ _ _ h => .access h) (M.moves_eq s ts ▸ hm) hidle
      fun t hb => hb (hout t)
  exact ⟨ρ, hρ, by rwa [hρ]⟩

theorem Program.Turn.step {o : Option ι} (h : M.Turn s o s') : M.Step s s' := by
  cases h with
  | call a ht ha => exact .call a ht ha
  | access h => exact .access h
  | other a n ha => exact .other a n ha

theorem Program.Step.exchanged (h : M.Step s s') : s.exchanged <+: s'.exchanged := by
  cases h with
  | call a ht ha => exact List.prefix_rfl
  | other a n ha => exact List.prefix_rfl
  | access hm =>
    obtain ⟨x, n, -, -, rfl⟩ := M.move_eq_some.1 hm
    unfold Program.perform
    dsimp only
    split
    · exact List.prefix_append _ _
    · exact List.prefix_rfl

/-! ## What an access does to the others -/

section
variable {t : ι} (hm : M.move s t = some s')
include hm

theorem pc_move {u : ι} (hu : u ≠ t) : s'.pc u = s.pc u := by
  obtain ⟨x, n, -, -, rfl⟩ := M.move_eq_some.1 hm
  exact Function.update_of_ne hu _ _

theorem lock_move : s'.lock = s.lock ∨
    ∃ x, M.code (s.pc t) = some x ∧ x.target = .lock ∧ s'.lock = (x.act s.lock).1 := by
  obtain ⟨x, n, hx, hn, rfl⟩ := M.move_eq_some.1 hm
  unfold Program.perform
  cases htarget : x.target with
  | null => exact .inl rfl
  | node r => exact .inl rfl
  | lock =>
    rw [htarget] at hn
    obtain rfl := Option.some.inj hn
    exact .inr ⟨x, hx, htarget, rfl⟩

/-- The node of a call changes only when it is accessed: no other node lies where it is. -/
theorem mem_move (hlive : Live M s)
    (hrun : ∀ x r, M.code (s.pc t) = some x → x.target = .node r → M.Running s r) {r : Ref ι A}
    (hr : M.Running s r) : s'.mem r.addr = s.mem r.addr ∨
      ∃ x, M.code (s.pc t) = some x ∧ x.target = .node r ∧
        s'.mem r.addr = (x.act (s.mem r.addr)).1 := by
  obtain ⟨x, n, hx, hn, rfl⟩ := M.move_eq_some.1 hm
  unfold Program.perform
  cases htarget : x.target with
  | null => exact .inl rfl
  | lock => exact .inl rfl
  | node r' =>
    have hr' := hrun x r' hx htarget
    by_cases he : r = r'
    · subst he
      rw [htarget] at hn
      obtain rfl := Option.some.inj hn
      exact .inr ⟨x, hx, htarget, Function.update_self _ _ _⟩
    · exact .inl (hlive.update_other hr' hr he)

end

/-! ## What is around the threads -/

/-- A call does not begin, and no other code runs, where a thread is in a call. -/
theorem Program.Turn.around {t : ι} (hs : M.Turn s none s') (ht : M.Busy s t) :
    s'.pc t = s.pc t ∧ s'.lock = s.lock ∧
      ∀ r, M.node (s.pc t) = some r → s'.mem r.addr = s.mem r.addr := by
  cases hs with
  | @call u a hu ha =>
    refine ⟨?_, rfl, fun _ _ => rfl⟩
    apply Function.update_of_ne
    intro he
    rw [← he] at hu
    exact ht hu
  | other a n ha => exact ⟨rfl, rfl, fun r hr => Function.update_of_ne (ha t r hr) _ _⟩

omit [DecidableEq ι] [DecidableEq A] in
theorem busy_of_node (hM : M.Lawful) {t : ι} {r : Ref ι A} (hr : M.node (s.pc t) = some r) :
    M.Busy s t := by
  intro he
  rw [he, hM.out] at hr
  cases hr

theorem Queued.known_around {L : Layout ι A N P} {q : List (Ref ι A)} {y : Ref ι A}
    (h : Queued M L s q) (hM : M.Lawful) (hs : M.Turn s none s') (hk : L.Known s y) :
    L.Known s' y := by
  obtain ⟨x, hx, hn⟩ := hk
  have hnode := h.node _ _ hx
  obtain ⟨hpc, -, hmem⟩ := hs.around (busy_of_node hM hnode)
  refine ⟨x, by rw [hpc]; exact hx, ?_⟩
  unfold Layout.next at hn ⊢
  rw [hmem x hnode]
  exact hn

/-! ## What happens in fair runs -/

theorem Program.Step.entered (h : M.Step s s') : s.entered <+: s'.entered := by
  cases h with
  | call a ht ha => exact List.prefix_rfl
  | other a n ha => exact List.prefix_rfl
  | access hm =>
    obtain ⟨x, n, -, -, rfl⟩ := M.move_eq_some.1 hm
    unfold Program.perform
    dsimp only
    split
    · exact List.prefix_append _ _
    · exact List.prefix_rfl

/-- The step of somebody else leaves a thread where it is. -/
theorem Program.Turn.pc {o : Option ι} {t : ι} (h : M.Turn s o s') (ho : o ≠ some t)
    (ht : M.Busy s t) : s'.pc t = s.pc t := by
  cases h with
  | @call u a hu ha =>
    apply Function.update_of_ne
    intro he
    rw [← he] at hu
    exact ht hu
  | other a n ha => rfl
  | access hm =>
    apply pc_move hm
    intro he
    exact ho (congrArg some he.symm)

/-- **A thread that does not have to wait gets ahead**: its own accesses lower a rank until they
reach the goal. -/
theorem Program.goes (ρ : M.Fair) {R : P → Nat → Prop} {G : P → Prop} (hout : ∀ k, ¬ R M.out k)
    (hstep : ∀ p k x, R p k → M.code p = some x → ∀ n,
      G (x.act n).2 ∨ ∃ k' < k, R (x.act n).2 k')
    {n k : Nat} {t : ι} (h : R ((ρ.state n).pc t) k) : ∃ m, n < m ∧ G ((ρ.state m).pc t) := by
  refine ρ.eventually (D := fun s k u => u = t ∧ R (s.pc t) k) ?_ (t := t) ⟨rfl, h⟩
  rintro n k u ⟨rfl, hR⟩
  have hbusy : M.Busy (ρ.state n) u := by
    intro he
    rw [he] at hR
    exact hout k hR
  refine ⟨hbusy, ?_⟩
  by_cases ho : ρ.mover n = some u
  · have hs := ρ.step n
    rw [ho] at hs
    cases hs with
    | access hm =>
      obtain ⟨x, c, hx, -, he⟩ := M.move_eq_some.1 hm
      have hpc : (ρ.state (n + 1)).pc u = (x.act c).2 := by
        rw [← he]
        exact Function.update_self _ _ _
      rw [hpc]
      rcases hstep _ k x hR hx c with hG | ⟨k', hk, hR'⟩
      · exact .inl hG
      · exact .inr ⟨k', u, ⟨rfl, hR'⟩, .inl hk⟩
  · refine .inr ⟨k, u, ⟨rfl, ?_⟩, .inr ⟨rfl, rfl, ho⟩⟩
    rw [(ρ.step n).pc ho hbusy]
    exact hR

/-- **Some call gets the lock** as long as one waits, if it is always the turn of some thread, whose
access brings the lock forward. -/
theorem Program.advances (ρ : M.Fair) {D : State ι A N P → Nat → ι → Prop}
    (hbusy : ∀ n k t, D (ρ.state n) k t → M.Busy (ρ.state n) t)
    (hex : ∀ n, (ρ.state n).entered.length < (ρ.state n).exchanged.length →
      ∃ k t, D (ρ.state n) k t)
    (hself : ∀ n k t, (ρ.state n).entered.length < (ρ.state n).exchanged.length →
      D (ρ.state n) k t → M.move (ρ.state n) t = some (ρ.state (n + 1)) →
      (ρ.state n).entered.length < (ρ.state (n + 1)).entered.length ∨
        ∃ k' t', D (ρ.state (n + 1)) k' t' ∧ k' < k)
    (hother : ∀ n k t, D (ρ.state n) k t → ρ.mover n ≠ some t → D (ρ.state (n + 1)) k t) {n : Nat}
    (hn : (ρ.state n).entered.length < (ρ.state n).exchanged.length) :
    ∃ m, n < m ∧ (ρ.state n).entered.length < (ρ.state m).entered.length := by
  obtain ⟨k, t, ht⟩ := hex n hn
  refine ρ.eventually (G := fun m => (ρ.state n).entered.length < (ρ.state m).entered.length)
    (D := fun s k t => (ρ.state n).entered.length ≤ s.entered.length ∧
      s.entered.length < s.exchanged.length ∧ D s k t) ?_ ⟨Nat.le_refl _, hn, ht⟩
  intro m k t h
  obtain ⟨hle, hlt, hd⟩ := h
  refine ⟨hbusy m k t hd, ?_⟩
  have hx := (ρ.step m).step.exchanged.length_le
  have he := (ρ.step m).step.entered.length_le
  by_cases hgrow : (ρ.state m).entered.length < (ρ.state (m + 1)).entered.length
  · exact .inl (by omega)
  refine .inr ?_
  by_cases ho : ρ.mover m = some t
  · have hs := ρ.step m
    rw [ho] at hs
    cases hs with
    | access hm =>
      rcases hself m k t hlt hd hm with hg | ⟨k', t', hd', hk⟩
      · exact absurd hg hgrow
      · exact ⟨k', t', ⟨by omega, by omega, hd'⟩, .inl hk⟩
  · exact ⟨k, t, ⟨by omega, by omega, hother m k t hd ho⟩, .inr ⟨rfl, rfl, ho⟩⟩

namespace Face

variable {V : Face M}

variable (V) in
/-- A call that was granted the lock has returned, or still has the lock. -/
def Logged (s : State ι A N P) : Prop :=
  ∀ r ∈ s.entered, r.call < s.calls ∧ (M.node (s.pc r.thread) = some r → V.Holds (s.pc r.thread))

/-- A call gets the lock by an access of its own, and has it then. -/
theorem holds_of_entered {r : Ref ι A} (hlive : Live M s) (hs : M.Step s s') (hr : r ∈ s'.entered)
    (hn : r ∉ s.entered) : r.call < s'.calls ∧ V.Holds (s'.pc r.thread) := by
  cases hs with
  | call a ht ha => exact absurd hr hn
  | other a n ha => exact absurd hr hn
  | @access _ t hm =>
    obtain ⟨x, n, hx, -, rfl⟩ := M.move_eq_some.1 hm
    unfold Program.perform at hr ⊢
    dsimp only at hr ⊢
    split at hr
    case isFalse => exact absurd hr hn
    case isTrue hen =>
      obtain ⟨mm, hmm⟩ := Option.isSome_iff_exists.1 (V.enters _ hen)
      obtain ⟨hthread, hcall⟩ := hlive.own t mm hmm
      obtain rfl : r = mm := by simpa [hn, hmm] using hr
      rw [hthread, Function.update_self, State.store_calls]
      exact ⟨hcall, V.enter_holds _ x hx hen n⟩

theorem Logged.step (hM : M.Lawful) (hlive : Live M s) (h : V.Logged s) (hs : M.Step s s') :
    V.Logged s' := by
  intro r hr
  by_cases hn : r ∈ s.entered
  case neg =>
    obtain ⟨hcall, hold⟩ := V.holds_of_entered hlive hs hr hn
    exact ⟨hcall, fun _ => hold⟩
  obtain ⟨hcall, hold⟩ := h r hn
  cases hs with
  | @call t a ht ha =>
    refine ⟨Nat.lt_succ_of_lt hcall, ?_⟩
    intro hnode
    dsimp only at hnode ⊢
    by_cases hrt : r.thread = t
    · rw [hrt, Function.update_self, hM.enter] at hnode
      rw [← Option.some.inj hnode] at hcall
      exact absurd hcall (Nat.lt_irrefl _)
    · rw [Function.update_of_ne hrt] at hnode ⊢
      exact hold hnode
  | other a n ha => exact ⟨hcall, hold⟩
  | @access _ t hm =>
    obtain ⟨x, n, hx, -, rfl⟩ := M.move_eq_some.1 hm
    unfold Program.perform
    refine ⟨by simpa using hcall, ?_⟩
    intro hnode
    dsimp only at hnode ⊢
    by_cases hrt : r.thread = t
    case neg =>
      rw [Function.update_of_ne hrt] at hnode ⊢
      exact hold hnode
    rw [hrt] at hold hnode ⊢
    rw [Function.update_self] at hnode ⊢
    have hkeep : M.node (s.pc t) = some r := by
      rcases hM.keep _ x hx n with hk | hk
      · rw [← hk, hnode]
      · rw [hk] at hnode
        cases hnode
    by_cases hen : M.enters (s.pc t) = true
    · exact V.enter_holds _ x hx hen n
    have hen' : M.enters (s.pc t) = false := by simpa using hen
    by_cases hre : V.releases (s.pc t) = true
    · rw [(V.release_holds _ x hx hen' hre).2 n, hM.out] at hnode
      cases hnode
    · exact (V.stay _ x hx hen' (by simpa using hre) n).2 (hold hkeep)

/-- **Every call that has taken its place gets the lock**: those before it do, one after another. -/
theorem served (ρ : M.Fair) (hpre : ∀ n, (ρ.state n).entered <+: (ρ.state n).exchanged)
    (hgo : ∀ n, (ρ.state n).entered.length < (ρ.state n).exchanged.length →
      ∃ m, n < m ∧ (ρ.state n).entered.length < (ρ.state m).entered.length)
    {n : Nat} {r : Ref ι A} (hr : r ∈ (ρ.state n).exchanged) :
    ∃ m, n ≤ m ∧ r ∈ (ρ.state m).entered := by
  obtain ⟨i, hi, hri⟩ := List.mem_iff_getElem.1 hr
  have hgrow : ∀ m, n ≤ m → (ρ.state n).exchanged <+: (ρ.state m).exchanged := by
    intro m hm
    apply ρ.always (J := fun s => (ρ.state n).exchanged <+: s.exchanged) ?_ hm List.prefix_rfl
    intro s o s' hJ hs
    exact hJ.trans hs.step.exchanged
  -- the number of calls that are to get the lock before, and with, the call
  have hmain : ∀ d m, n ≤ m → i + 1 - (ρ.state m).entered.length = d →
      ∃ m, n ≤ m ∧ r ∈ (ρ.state m).entered := by
    intro d
    induction d using Nat.strongRecOn with
    | ind d ih =>
      intro m hm hd
      by_cases hlt : i < (ρ.state m).entered.length
      · refine ⟨m, hm, List.mem_iff_getElem.2 ⟨i, hlt, ?_⟩⟩
        have hlen := (hgrow m hm).length_le
        rw [(hpre m).getElem, ← hri, (hgrow m hm).getElem]
      · have hlen := (hgrow m hm).length_le
        obtain ⟨m', hm', hl⟩ := hgo m (by omega)
        exact ih _ (by omega) m' (by omega) rfl
  exact hmain _ n (Nat.le_refl n) rfl

/-- A call that is to be granted the lock has it at some point. -/
theorem gets (ρ : M.Fair) (hlive : ∀ n, Live M (ρ.state n)) (hlog : ∀ n, V.Logged (ρ.state n))
    {n : Nat} {t : ι} {r : Ref ι A} (hnode : M.node ((ρ.state n).pc t) = some r)
    (hnot : ¬ V.Holds ((ρ.state n).pc t)) (hr : ∃ m, n ≤ m ∧ r ∈ (ρ.state m).entered) :
    ∃ m, n < m ∧ V.Holds ((ρ.state m).pc t) := by
  have hthread := ((hlive n).own t r hnode).1
  have hn : r ∉ (ρ.state n).entered := by
    intro hr
    have hold := (hlog n r hr).2
    rw [hthread] at hold
    exact hnot (hold hnode)
  obtain ⟨m, hm, hr⟩ := hr
  induction hm with
  | refl => exact absurd hr hn
  | @step m hm ih =>
    by_cases hrm : r ∈ (ρ.state m).entered
    · exact ih hrm
    · refine ⟨m + 1, Nat.lt_succ_of_le hm, ?_⟩
      have hold := (V.holds_of_entered (hlive m) (ρ.step m).step hr hrm).2
      rwa [hthread] at hold

end Face

end Lib.StackNodes
