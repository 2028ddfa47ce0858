import FjxFiber.Demo.DiningPhilosopherTable

/-!
# The runs of the philosophers (`demo/dining-philosopher.c`)

The program on the mutex and the semaphores, in pieces, is simulated by the table (`State.table`): a
step of a call is unseen, or is one section. So what the table keeps holds of every run
(`Reached.coupled`), and until `main` returns some philosopher can move (`Reached.moves`).
-/

set_option autoImplicit false

namespace Demo.DiningPhilosopher

open Lib Lib.Monitor Sync

namespace Pc

/-- In a call on `m`. -/
def inMutex : Pc → Bool
  | taking | putting | unlocking _ => true
  | _ => false

/-- `i` is in a call on `s[k]`. -/
def inSemaphore (i k : Ph) : Pc → Bool
  | signalling w => w.arg i = k
  | waiting => i = k
  | _ => false

end Pc

/-- What is seen of a state. -/
def State.table (s : State) : Table where
  state := s.state
  pc := s.pc
  mp := s.m.place (mutex Ph)
  sp k := (s.s k).place (semaphore Ph)
  owners := s.m.obj.owners
  count k := (s.s k).obj.count.toNat
  dropped k := (s.s k).obj.dropped.length

/-- **The calls of the program**: a philosopher is in no call but the one that its code is at, and
nobody destroys anything. -/
structure Coupled (s : State) : Prop where
  onMutex : Client (mutex Ph) .create (fun i => (s.pc i).inMutex) s.m
  onSemaphore : ∀ k, Client (semaphore Ph) (.boundCreate 0 1)
    (fun i => (s.pc i).inSemaphore i k) (s.s k)

variable {s s' : State} {i j k f : Ph} {p p' : Pc} {a : Act} {state : Ph → PhState}
  {back back' : Prop} {backFrom backFrom' : Ph → Prop}

/-! ## The calls that the code makes -/

theorem Exec.mono (h : Exec state back backFrom i p a p') (hb : back → back')
    (hf : ∀ k, backFrom k → backFrom' k) : Exec state back' backFrom' i p a p' := by
  cases h with
  | awake => exact .awake
  | lockTake => exact .lockTake
  | hungry h => exact .hungry (hb h)
  | test w => exact .test w
  | testLeft w => exact .testLeft w
  | testRight w => exact .testRight w
  | eat w => exact .eat w
  | signal w => exact .signal w
  | signalled w h => exact .signalled w (hf _ h)
  | putRight => exact .putRight
  | unlock w h => exact .unlock w h
  | unlockedTake h => exact .unlockedTake (hb h)
  | unlockedPut w hw h => exact .unlockedPut w hw (hb h)
  | wait => exact .wait
  | fed h => exact .fed (hf _ h)
  | lockPut => exact .lockPut
  | thinking h => exact .thinking (hb h)

/-- A piece of code makes a call on `m`, or is in none afterwards. -/
theorem Exec.mutex (h : Exec state back backFrom i p a p') :
    (∃ op, a = .mutex op ∧ p.inMutex = false ∧ p'.inMutex = true ∧ op ≠ .destroy ∧
      (op = .unlock → p.Owns .through)) ∨
    (∀ op, a ≠ .mutex op) ∧ (p.inMutex = true → back) := by
  cases h with
  | lockTake => exact .inl ⟨_, rfl, rfl, rfl, by simp, by simp⟩
  | unlock w h => exact .inl ⟨_, rfl, rfl, rfl, by simp, fun _ => trivial⟩
  | lockPut => exact .inl ⟨_, rfl, rfl, rfl, by simp, by simp⟩
  | hungry h => exact .inr ⟨by simp, fun _ => h⟩
  | unlockedTake h => exact .inr ⟨by simp, fun _ => h⟩
  | unlockedPut w hw h => exact .inr ⟨by simp, fun _ => h⟩
  | thinking h => exact .inr ⟨by simp, fun _ => h⟩
  | _ => exact .inr ⟨by simp, by simp [Pc.inMutex]⟩

theorem Exec.semaphore (h : Exec state back backFrom i p a p') (k : Ph) :
    (∃ op, a = .semaphore k op ∧ p.inSemaphore i k = false ∧ p'.inSemaphore i k = true ∧
      op ≠ .destroy) ∨
    (∀ op, a ≠ .semaphore k op) ∧ (p.inSemaphore i k = true → backFrom k) := by
  cases h with
  | signal w =>
    by_cases hk : w.arg i = k
    · subst hk
      exact .inl ⟨_, rfl, rfl, by simp [Pc.inSemaphore], by simp⟩
    · exact .inr ⟨by simp [hk], by simp [Pc.inSemaphore]⟩
  | wait =>
    by_cases hk : i = k
    · subst hk
      exact .inl ⟨_, rfl, rfl, by simp [Pc.inSemaphore], by simp⟩
    · exact .inr ⟨by simp [hk], by simp [Pc.inSemaphore]⟩
  | signalled w h =>
    refine .inr ⟨by simp, fun hk => ?_⟩
    obtain rfl : w.arg i = k := by simpa [Pc.inSemaphore] using hk
    exact h
  | fed h =>
    refine .inr ⟨by simp, fun hk => ?_⟩
    obtain rfl : i = k := by simpa [Pc.inSemaphore] using hk
    exact h
  | _ => exact .inr ⟨by simp, by simp [Pc.inSemaphore]⟩

/-! ## A piece of code -/

namespace Coupled

section
variable (h : Coupled s)
  (hx : Exec s.state (s.m.pc i = .idle) (fun k => (s.s k).pc i = .idle) i (s.pc i) a p')
include h hx

/-- A philosopher that runs its code is in no call. -/
theorem exec_idle : s.m.pc i = .idle ∧ ∀ k, (s.s k).pc i = .idle := by
  constructor
  · rcases hx.mutex with ⟨op, -, hp, -⟩ | ⟨-, hb⟩
    · exact h.onMutex.idle i hp
    · cases hp : (s.pc i).inMutex with
      | false => exact h.onMutex.idle i hp
      | true => exact hb hp
  · intro k
    rcases hx.semaphore k with ⟨op, -, hp, -⟩ | ⟨-, hb⟩
    · exact (h.onSemaphore k).idle i hp
    · cases hp : (s.pc i).inSemaphore i k with
      | false => exact (h.onSemaphore k).idle i hp
      | true => exact hb hp

/-- What the table sees of the piece of code. -/
theorem exec_table : ((s.perform i a).goto i p').table = s.table.exec i a p' := by
  obtain ⟨hm, hs⟩ := h.exec_idle hx
  have hmp : ∀ j, s.m.place (Sync.mutex Ph) j =
      Function.update (s.m.place (Sync.mutex Ph)) i .through j := by
    intro j
    by_cases hj : j = i
    · rw [hj, Function.update_self, place_of_idle hm]
    · rw [Function.update_of_ne hj]
  have hsp : ∀ k j, (s.s k).place (Sync.semaphore Ph) j =
      Function.update ((s.s k).place (Sync.semaphore Ph)) i .through j := by
    intro k j
    by_cases hj : j = i
    · rw [hj, Function.update_self, place_of_idle (hs k)]
    · rw [Function.update_of_ne hj]
  cases a with
  | none => exact Table.ext rfl rfl (funext hmp) (funext fun k => funext (hsp k)) rfl rfl rfl
  | store j v => exact Table.ext rfl rfl (funext hmp) (funext fun k => funext (hsp k)) rfl rfl rfl
  | mutex op =>
    refine Table.ext rfl rfl (funext fun j => ?_) (funext fun k => funext (hsp k)) rfl rfl rfl
    show (s.m.at i (.want op)).place _ j = Function.update (s.m.place _) i (.ahead op) j
    rw [place_call, Function.update_apply]
  | semaphore k op =>
    refine Table.ext rfl rfl (funext hmp) (funext fun k' => funext fun j => ?_) rfl
      (funext fun k' => ?_) (funext fun k' => ?_)
    all_goals simp only [State.table, State.perform, State.goto, Table.exec]
    · by_cases hk : k' = k
      · subst hk
        rw [Function.update_self, place_call, Function.update_apply]
        simp [Act.semaphorePlace]
      · rw [Function.update_of_ne hk]
        simp only [Act.semaphorePlace, if_neg (Ne.symm hk)]
        exact hsp k' j
    · by_cases hk : k' = k
      · subst hk
        rw [Function.update_self]
        rfl
      · rw [Function.update_of_ne hk]
    · by_cases hk : k' = k
      · subst hk
        rw [Function.update_self]
        rfl
      · rw [Function.update_of_ne hk]

/-- The table runs the same piece of code. -/
theorem exec_step : Table.Step s.table ((s.perform i a).goto i p').table := by
  rw [h.exec_table hx]
  exact .exec i (hx.mono place_of_idle fun k => place_of_idle)

theorem exec (ht : s.table.Inv) : Coupled ((s.perform i a).goto i p') := by
  obtain ⟨hm, hs⟩ := h.exec_idle hx
  have hpc : ∀ j, j ≠ i → ((s.perform i a).goto i p').pc j = s.pc j := by
    intro j hj
    cases a <;> exact Function.update_of_ne hj _ _
  have hself : ((s.perform i a).goto i p').pc i = p' := by
    cases a <;> exact Function.update_self ..
  refine ⟨?_, fun k => ?_⟩
  · have hother : ∀ j, j ≠ i → (((s.perform i a).goto i p').pc j).inMutex =
        (s.pc j).inMutex := fun j hj => by rw [hpc j hj]
    rcases hx.mutex with ⟨op, rfl, hp, hp', hop, hown⟩ | ⟨hno, -⟩
    · show Client (mutex Ph) .create _ (s.m.at i (.want op))
      refine h.onMutex.call hm (fun hu => ?_) (by simp [Sync.mutex, hop])
        (by rw [hself]; exact hp') hother
      have hown' := (ht.owns i).2
      rw [show s.table.mp i = .through from place_of_idle hm] at hown'
      exact hown' (hown hu)
    · have he : ((s.perform i a).goto i p').m = s.m := by
        cases a with
        | mutex op => exact absurd rfl (hno op)
        | _ => rfl
      rw [he]
      exact h.onMutex.stay hm hother
  · have hother : ∀ j, j ≠ i → (((s.perform i a).goto i p').pc j).inSemaphore j k =
        (s.pc j).inSemaphore j k := fun j hj => by rw [hpc j hj]
    rcases hx.semaphore k with ⟨op, rfl, hp, hp', hop⟩ | ⟨hno, -⟩
    · have he : ((s.perform i (.semaphore k op)).goto i p').s k = (s.s k).at i (.want op) :=
        Function.update_self ..
      rw [he]
      exact (h.onSemaphore k).call (hs k) trivial (by simp [Sync.semaphore, hop])
        (by rw [hself]; exact hp') hother
    · have he : ((s.perform i a).goto i p').s k = s.s k := by
        cases a with
        | semaphore k' op =>
          have hk : k ≠ k' := by
            rintro rfl
            exact hno op rfl
          exact Function.update_of_ne hk _ _
        | _ => rfl
      rw [he]
      exact (h.onSemaphore k).stay (hs k) hother

end

/-! ## A step of a call -/

theorem mutex_inv (h : Coupled s) : Monitor.Inv (Sync.mutex Ph) s.m :=
  Reach.inv FiberMutex.lawful rfl h.onMutex.reach

theorem semaphore_inv (h : Coupled s) (k : Ph) : Monitor.Inv (Sync.semaphore Ph) (s.s k) :=
  Reach.inv FiberSemaphore.lawful rfl (h.onSemaphore k).reach

/-- **A step of a call on the mutex** is unseen, or is a section. -/
theorem mutex_step (h : Coupled s) {t : Monitor.State Ph MutexOp (Owned Ph)}
    (hi : Internal (Sync.mutex Ph) s.m t) :
    State.table { s with m := t } = s.table ∨
      Table.Step s.table (State.table { s with m := t }) := by
  have hI := h.mutex_inv
  have hsound := FiberMutex.Reached.sound h.onMutex.reach
  rcases hi.seen FiberMutex.lawful hI with ⟨hobj, hplace⟩ | ⟨f, op, hb, hobj, hself, hother⟩
  · left
    refine Table.ext rfl rfl (funext hplace) rfl ?_ rfl rfl
    show t.obj.owners = s.m.obj.owners
    rw [hobj]
  right
  have hop : op ≠ .destroy := by
    have hc := h.onMutex.calm.ops f op (pending_of_place hb)
    simpa [Sync.mutex] using hc
  -- whom the section takes is not `f`
  have hmp : ∀ x : Place MutexOp, t.place (Sync.mutex Ph) f = x →
      ((Sync.mutex Ph).sec op f s.m.obj).2.taken = [] →
      t.place (Sync.mutex Ph) = Function.update (s.m.place (Sync.mutex Ph)) f x := by
    intro x hx ht
    funext g
    by_cases hg : g = f
    · rw [hg, Function.update_self, hx]
    · rw [Function.update_of_ne hg, hother g hg, ht]
      simp
  rcases FiberMutex.sec_cases op f s.m.obj with ⟨rfl, hh, hs⟩ | ⟨rfl, hh, hs⟩ | ⟨rfl, -, hs⟩ |
    ⟨g, rest, rfl, hq, hs⟩ | ⟨rfl, -⟩ | ⟨rfl, -⟩
  · -- let through
    have ho : s.m.obj.owners = [] := by
      rcases hsound.owner with ⟨-, ho, -⟩ | ⟨h1, -⟩
      · exact ho
      · omega
    rw [hs] at hobj hself hmp
    have he : State.table { s with m := t } = { s.table with
        owners := [f], mp := Function.update s.table.mp f .through } := by
      refine Table.ext rfl rfl (hmp _ hself rfl) rfl ?_ rfl rfl
      show t.obj.owners = [f]
      rw [hobj, ho]
    rw [he]
    exact .lock f hb ho
  · -- queued behind the owner
    have ho : s.m.obj.owners ≠ [] := by
      rcases hsound.owner with ⟨h1, -⟩ | ⟨-, g, ho⟩
      · exact absurd h1 hh
      · simp [ho]
    rw [hs] at hobj hself hmp
    have he : State.table { s with m := t } = { s.table with
        mp := Function.update s.table.mp f (.queued .lock) } := by
      refine Table.ext rfl rfl (hmp _ hself rfl) rfl ?_ rfl rfl
      show t.obj.owners = s.m.obj.owners
      rw [hobj]
    rw [he]
    exact .block f hb ho
  · -- the owner unlocks and nobody waits
    rw [hs] at hobj hself hmp
    have he : State.table { s with m := t } = { s.table with
        owners := s.table.owners.erase f, mp := Function.update s.table.mp f .through } := by
      refine Table.ext rfl rfl (hmp _ hself rfl) rfl ?_ rfl rfl
      show t.obj.owners = s.m.obj.owners.erase f
      rw [hobj]
    rw [he]
    exact .unlock f hb
  · -- the owner hands the mutex on
    have hgw : g ∈ (Sync.mutex Ph).waiters s.m.obj := by
      show g ∈ s.m.obj.fiberList
      rw [hq]
      exact List.mem_cons_self
    obtain ⟨op', hg⟩ := hI.mem_waiters.1 hgw
    rw [hs] at hobj hself hother
    have he : State.table { s with m := t } = { s.table with
        owners := g :: s.table.owners.erase f,
        mp := Function.update (Function.update s.table.mp g .through) f .through } := by
      refine Table.ext rfl rfl (funext fun x => ?_) rfl ?_ rfl rfl
      · show t.place (Sync.mutex Ph) x = Function.update (Function.update
          (s.m.place (Sync.mutex Ph)) g .through) f .through x
        by_cases hx : x = f
        · rw [hx, Function.update_self]
          exact hself
        · rw [Function.update_of_ne hx, hother x hx, Function.update_apply]
          simp [Outcome.taken]
      · show t.obj.owners = g :: s.m.obj.owners.erase f
        rw [hobj]
    rw [he]
    exact .handOver f g op' hb hg
  · exact absurd rfl hop
  · exact absurd rfl hop

/-- **A step of a call on a semaphore** is unseen, or is a section. -/
theorem semaphore_step (h : Coupled s) {t : Monitor.State Ph SemaphoreOp (Counted Ph)}
    (hi : Internal (Sync.semaphore Ph) (s.s k) t) :
    State.table { s with s := Function.update s.s k t } = s.table ∨
      Table.Step s.table (State.table { s with s := Function.update s.s k t }) := by
  have hI := h.semaphore_inv k
  have hsound := FiberSemaphore.Reached.sound (h.onSemaphore k).reach
  -- what is seen of the semaphores
  have htable : ∀ {sp : Ph → Ph → Place SemaphoreOp} {count dropped : Ph → Nat},
      t.place (Sync.semaphore Ph) = sp k → t.obj.count.toNat = count k →
      t.obj.dropped.length = dropped k →
      (∀ k', k' ≠ k → s.table.sp k' = sp k' ∧ s.table.count k' = count k' ∧
        s.table.dropped k' = dropped k') →
      State.table { s with s := Function.update s.s k t } =
        { s.table with sp, count, dropped } := by
    intro sp count dropped h1 h2 h3 h4
    refine Table.ext rfl rfl rfl (funext fun k' => ?_) rfl (funext fun k' => ?_)
      (funext fun k' => ?_)
    all_goals
      simp only [State.table]
      by_cases hk : k' = k
      · subst hk
        rw [Function.update_self]
        assumption
      · rw [Function.update_of_ne hk]
        have := h4 k' hk
        first | exact this.1 | exact this.2.1 | exact this.2.2
  rcases hi.seen FiberSemaphore.lawful hI with ⟨hobj, hplace⟩ | ⟨f, op, hb, hobj, hself, hother⟩
  · left
    refine htable (funext hplace) ?_ ?_ fun k' _ => ⟨rfl, rfl, rfl⟩
    · rw [hobj]
    · rw [hobj]
  right
  have hop : op ≠ .destroy := by
    have hc := (h.onSemaphore k).calm.ops f op (pending_of_place hb)
    simpa [Sync.semaphore] using hc
  have hsp : ∀ x : Place SemaphoreOp, t.place (Sync.semaphore Ph) f = x →
      ((Sync.semaphore Ph).sec op f (s.s k).obj).2.taken = [] →
      t.place (Sync.semaphore Ph) = Function.update ((s.s k).place (Sync.semaphore Ph)) f x := by
    intro x hx ht
    funext g
    by_cases hg : g = f
    · rw [hg, Function.update_self, hx]
    · rw [Function.update_of_ne hg, hother g hg, ht]
      simp
  have hset : ∀ x : Place SemaphoreOp, ∀ k', k' ≠ k →
      (s.table.setPlace k f x).sp k' = s.table.sp k' := fun x k' hk =>
    Function.update_of_ne hk _ _
  have hself' : ∀ x : Place SemaphoreOp, (s.table.setPlace k f x).sp k =
      Function.update ((s.s k).place (Sync.semaphore Ph)) f x := fun x =>
    Function.update_self ..
  have hbound : (s.s k).obj.bound = 1 := hsound.same
  rcases FiberSemaphore.sec_cases op f (s.s k).obj with ⟨rfl, hc, hs⟩ | ⟨rfl, hc, hs⟩ |
    ⟨g, rest, rfl, hq, hs⟩ | ⟨rfl, -, hc, hs⟩ | ⟨rfl, -, hc, hs⟩ | ⟨rfl, -⟩ | ⟨rfl, -⟩
  · -- a token is taken
    obtain ⟨h1, h2⟩ := FiberSemaphore.toNat_pred hc
    rw [hs] at hobj hself hsp
    have he : State.table { s with s := Function.update s.s k t } =
        { s.table.setPlace k f .through with
          count := Function.update s.table.count k (s.table.count k - 1) } := by
      refine htable ((hsp _ hself rfl).trans (hself' _).symm) ?_ (by rw [hobj]; rfl)
        fun k' hk => ?_
      · rw [hobj, Function.update_self]
        exact h1
      · exact ⟨(hset _ k' hk).symm, (Function.update_of_ne hk _ _).symm, rfl⟩
    rw [he]
    exact .take k f hb h2
  · -- it waits for one
    rw [hs] at hobj hself hsp
    have he : State.table { s with s := Function.update s.s k t } =
        s.table.setPlace k f (.queued .wait) := by
      refine htable ((hsp _ hself rfl).trans (hself' _).symm) (by rw [hobj]; rfl)
        (by rw [hobj]; rfl) fun k' hk => ⟨(hset _ k' hk).symm, rfl, rfl⟩
    rw [he]
    exact .sleep k f hb (by simp [State.table, hc])
  · -- a token is handed over
    have hgw : g ∈ (Sync.semaphore Ph).waiters (s.s k).obj := by
      show g ∈ (s.s k).obj.fiberList
      rw [hq]
      exact List.mem_cons_self
    obtain ⟨op', hg⟩ := hI.mem_waiters.1 hgw
    rw [hs] at hobj hself hother
    have he : State.table { s with s := Function.update s.s k t } =
        (s.table.setPlace k g .through).setPlace k f .through := by
      refine htable (funext fun x => ?_) (by rw [hobj]; rfl) (by rw [hobj]; rfl) fun k' hk => ?_
      · show _ = ((s.table.setPlace k g .through).setPlace k f .through).sp k x
        rw [Table.setPlace_apply, Table.setPlace_apply]
        by_cases hx : x = f
        · rw [hx, if_pos ⟨rfl, rfl⟩]
          exact hself
        · have hne : ¬ (k = k ∧ x = f) := fun hh => hx hh.2
          rw [hother x hx, if_neg hne]
          simp [Outcome.taken, State.table]
      · refine ⟨funext fun x => ?_, rfl, rfl⟩
        show _ = ((s.table.setPlace k g .through).setPlace k f .through).sp k' x
        rw [Table.setPlace_apply, Table.setPlace_apply, if_neg fun hh => hk hh.1,
          if_neg fun hh => hk hh.1]
    rw [he]
    exact .wake k f g op' hb hg
  · -- a token is added
    obtain ⟨h1, h2⟩ := FiberSemaphore.toNat_succ hc
    rw [hbound] at h2
    rw [hs] at hobj hself hsp
    have he : State.table { s with s := Function.update s.s k t } =
        { s.table.setPlace k f .through with
          count := Function.update s.table.count k (s.table.count k + 1) } := by
      refine htable ((hsp _ hself rfl).trans (hself' _).symm) ?_ (by rw [hobj]; rfl)
        fun k' hk => ?_
      · rw [hobj, Function.update_self]
        exact h1
      · exact ⟨(hset _ k' hk).symm, (Function.update_of_ne hk _ _).symm, rfl⟩
    rw [he]
    exact .add k f hb h2
  · -- a token is dropped
    rw [hbound] at hc
    rw [hs] at hobj hself hsp
    have he : State.table { s with s := Function.update s.s k t } =
        { s.table.setPlace k f .through with
          dropped := Function.update s.table.dropped k (s.table.dropped k + 1) } := by
      refine htable ((hsp _ hself rfl).trans (hself' _).symm) (by rw [hobj]; rfl) ?_
        fun k' hk => ?_
      · rw [hobj, Function.update_self]
        simp [State.table]
      · exact ⟨(hset _ k' hk).symm, rfl, (Function.update_of_ne hk _ _).symm⟩
    rw [he]
    exact .drop k f hb (UInt32.le_iff_toNat_le.1 hc)
  · exact absurd rfl hop
  · exact absurd rfl hop

end Coupled

/-! ## Every interleaving -/

theorem Table.Inv.start : State.start.table.Inv where
  mp _ := rfl
  sp _ _ := rfl
  one := .inl rfl
  owns i := by simp [State.table, State.start, Monitor.State.start, Owned.create, Pc.Owns]
  knows _ := trivial
  stands _ := rfl
  token k := .none rfl (fun _ => id) fun he => by cases he
  apart k he := by cases he.1
  fed k hk := by cases hk
  dropped _ := rfl

/-- **The program is simulated by the table**, whose invariant holds of every state of it. -/
theorem Reached.coupled (h : Reached s) : Coupled s ∧ s.table.Inv := by
  refine h.invariant (J := fun s => Coupled s ∧ s.table.Inv) ?_ ?_
  · rintro _ rfl
    exact ⟨⟨.start, fun _ => .start⟩, .start⟩
  · rintro s s' ⟨hc, ht⟩ hs
    cases hs with
    | exec i _ _ hx => exact ⟨hc.exec hx ht, ht.step (hc.exec_step hx)⟩
    | mutex t _ hi =>
      refine ⟨⟨hc.onMutex.internal FiberMutex.lawful hi, hc.onSemaphore⟩, ?_⟩
      rcases hc.mutex_step hi with he | hst
      · rw [he]
        exact ht
      · exact ht.step hst
    | semaphore k t _ hi =>
      refine ⟨⟨hc.onMutex, fun k' => ?_⟩, ?_⟩
      · show Client (semaphore Ph) _ (fun i => (s.pc i).inSemaphore i k')
          (Function.update s.s k t k')
        by_cases hk : k' = k
        · subst hk
          rw [Function.update_self]
          exact (hc.onSemaphore k').internal FiberSemaphore.lawful hi
        · rw [Function.update_of_ne hk]
          exact hc.onSemaphore k'
      · rcases hc.semaphore_step hi with he | hst
        · rw [he]
          exact ht
        · exact ht.step hst
    | ender e _ _ hx => exact ⟨⟨hc.onMutex, hc.onSemaphore⟩, ht⟩
    | syncS t _ hi => exact ⟨⟨hc.onMutex, hc.onSemaphore⟩, ht⟩

/-! ## Somebody can move -/

/-- Neither `g` nor a call on `sync_s` has moved, and `main` has not returned. -/
def State.EndStays (s s' : State) : Prop :=
  s'.syncS = s.syncS ∧ s'.ender .g = s.ender .g ∧ ¬ s'.Over

/-- A philosopher that cannot move is queued for the mutex or for its forks. -/
theorem Coupled.queued (h : Coupled s) (ht : s.table.Inv) (hgo : ¬ s.Over)
    (hspawned : ∀ i : Ph, (s.ender .main).Spawned i)
    (hno : ∀ s', Step s s' → ¬ s.EndStays s') (i : Ph) :
    (s.pc i = .taking ∨ s.pc i = .putting) ∧ s.m.place (mutex Ph) i = .queued .lock ∨
      s.pc i = .waiting ∧ ∃ op, (s.s i).place (semaphore Ph) i = .queued op := by
  have hm : s.m.pc i = .idle ∨ ∃ op, s.m.place (mutex Ph) i = .queued op :=
    stuck h.mutex_inv h.onMutex.calm (fun t ht => hno _ (.mutex t hgo ht) ⟨rfl, rfl, hgo⟩) i
  have hs : ∀ k, (s.s k).pc i = .idle ∨ ∃ op, (s.s k).place (semaphore Ph) i = .queued op :=
    fun k => stuck (h.semaphore_inv k) (h.onSemaphore k).calm
      (fun t ht => hno _ (.semaphore k t hgo ht) ⟨rfl, rfl, hgo⟩) i
  have hcode : ∀ {p a p'}, s.pc i = p → Exec s.state (s.m.pc i = .idle)
      (fun k => (s.s k).pc i = .idle) i p a p' → False := by
    rintro _ a p' rfl hx
    exact hno _ (.exec i hgo (hspawned i) hx) (by cases a <;> exact ⟨rfl, rfl, hgo⟩)
  have hmp : (s.pc i).MutexPlace (s.m.place (mutex Ph) i) := ht.mp i
  have hsp : ∀ k, (s.pc i).SemaphorePlace i k ((s.s k).place (semaphore Ph) i) := ht.sp i
  cases hp : s.pc i with
  | sleeping => exact (hcode hp .awake).elim
  | think => exact (hcode hp .lockTake).elim
  | taking =>
    rcases hm with hm | ⟨op, hm⟩
    · exact (hcode hp (.hungry hm)).elim
    · rw [hm] at hmp
      obtain rfl := hmp.queued.1
      exact .inl ⟨.inl rfl, hm⟩
  | test w => exact (hcode hp (.test w)).elim
  | testLeft w => exact (hcode hp (.testLeft w)).elim
  | testRight w => exact (hcode hp (.testRight w)).elim
  | eat w => exact (hcode hp (.eat w)).elim
  | signal w => exact (hcode hp (.signal w)).elim
  | signalling w =>
    rcases hs (w.arg i) with hs | ⟨op, hs⟩
    · exact (hcode hp (.signalled w hs)).elim
    · have hq := hsp (w.arg i)
      rw [hs] at hq
      rw [hp] at hq
      cases hq.queued.1
  | tested w =>
    by_cases hw : w = .putLeft
    · subst hw
      exact (hcode hp .putRight).elim
    · exact (hcode hp (.unlock w hw)).elim
  | unlocking w =>
    rcases hm with hm | ⟨op, hm⟩
    · by_cases hw : w = .take
      · subst hw
        exact (hcode hp (.unlockedTake hm)).elim
      · exact (hcode hp (.unlockedPut w hw hm)).elim
    · rw [hm, hp] at hmp
      rcases hmp.queued.2 with hmp | hmp <;> cases hmp
  | wait => exact (hcode hp .wait).elim
  | waiting =>
    rcases hs i with hs | ⟨op, hs⟩
    · exact (hcode hp (.fed hs)).elim
    · exact .inr ⟨rfl, op, hs⟩
  | eating => exact (hcode hp .lockPut).elim
  | putting =>
    rcases hm with hm | ⟨op, hm⟩
    · exact (hcode hp (.thinking hm)).elim
    · rw [hm] at hmp
      obtain rfl := hmp.queued.1
      exact .inl ⟨.inr rfl, hm⟩

/-- `main` can always go on spawning. -/
theorem spawned_of_stuck (hgo : ¬ s.Over) (hno : ∀ s', Step s s' → ¬ s.EndStays s') (i : Ph) :
    (s.ender .main).Spawned i := by
  cases hm : s.ender .main with
  | spawning n =>
    by_cases hn : n < 5
    · exact absurd ⟨rfl, rfl, fun ho => by cases ho⟩
        (hno _ (.ender .main hgo (by simp) (by rw [hm]; exact .spawn n hn)))
    · exact absurd ⟨rfl, rfl, fun ho => by cases ho⟩
        (hno _ (.ender .main hgo (by simp) (by rw [hm]; exact .spawnG n hn)))
  | _ => trivial

/-- **As long as `main` has not returned, a philosopher can move**, or `main` can spawn one. -/
theorem Reached.moves (h : Reached s) (hgo : ¬ s.Over) : ∃ s', Step s s' ∧ s.EndStays s' := by
  obtain ⟨hc, ht⟩ := h.coupled
  by_contra hno
  have hno : ∀ s', Step s s' → ¬ s.EndStays s' := fun s' hs he => hno ⟨s', hs, he⟩
  have hq := hc.queued ht hgo (spawned_of_stuck hgo hno) hno
  -- the owner of the mutex would not be queued
  have hmutex : ∀ i, s.m.place (mutex Ph) i ≠ .queued .lock := by
    intro i hi
    have hin : i ∈ s.m.obj.fiberList := hc.mutex_inv.mem_waiters.2 ⟨_, hi⟩
    obtain ⟨f, hf⟩ : ∃ f, s.m.obj.owners = [f] := by
      rcases (FiberMutex.Reached.sound hc.onMutex.reach).owner with ⟨-, -, hl⟩ | ⟨-, hf⟩
      · rw [hl] at hin
        cases hin
      · exact hf
    have hown : (s.pc f).Owns (s.m.place (mutex Ph) f) := (ht.owns f).1 (by simp [State.table, hf])
    rcases hq f with ⟨hp | hp, hm⟩ | ⟨hp, -⟩
    · rw [hp, hm] at hown
      cases hown
    · rw [hp, hm] at hown
      cases hown
    · rw [hp] at hown
      exact hown
  have hwait : ∀ i, s.pc i = .waiting ∧ ∃ op, (s.s i).place (semaphore Ph) i = .queued op :=
    fun i => (hq i).resolve_left fun hm => hmutex i hm.2
  -- so that nobody eats, and then nobody would have to wait
  have heat : ∀ k, s.state k ≠ .eating := by
    intro k hk
    obtain ⟨hp, op, hop⟩ := hwait k
    rcases ht.token k with ⟨-, -, he⟩ | ⟨hcount, -⟩ | ⟨-, i, hs, -⟩
    · have hf : (s.pc k).Fed ((s.s k).place (semaphore Ph) k) := he hk
      rw [hp, hop] at hf
      cases hf
    · have hin : k ∈ (s.s k).obj.fiberList := (hc.semaphore_inv k).mem_waiters.2 ⟨op, hop⟩
      have hz := (FiberSemaphore.Reached.sound (hc.onSemaphore k).reach).queue
        (List.ne_nil_of_mem hin)
      simp [State.table, hz] at hcount
    · have hs : (s.pc i).Signals i k _ := hs
      rw [(hwait i).1] at hs
      exact hs
  have hhungry : s.state 0 = .hungry := by
    have hs : (s.pc 0).Stands _ (s.state 0) := ht.stands 0
    rw [(hwait 0).1] at hs
    cases hv : s.state 0 with
    | thinking => exact absurd hv hs.1
    | hungry => rfl
    | eating => exact absurd hv (heat 0)
  rcases ht.fed 0 hhungry with hl | hr | ⟨i, hi⟩
  · exact heat _ hl
  · exact heat _ hr
  · have hi : (s.pc i).Pending i 0 := hi
    rw [(hwait i).1] at hi
    exact hi

end Demo.DiningPhilosopher
