import FjxFiber.Sched.Reached

/-!
# Who holds which lock

A thread holds a lock only inside the section that takes it, or, under the lock of an object, on
the way from the section that linked its fiber to the deferred operation that releases the lock on
the other side of the switch (`Held`). `Step` does not show `tlist_init_lock`, which a new work
thread takes once, and `pool_lock`, which `query_memory` takes to read and `insert_memory` to
write; `LockStep` adds them to it.
-/

set_option autoImplicit false

namespace Sched

open Lib Lib.StableQueue

variable {s s' : State} {t t' : Thr} {c c' x : Ctx} {F F' : List Frame} {o : Oid} {r r' : Running}

/-! ## The locks of `Step` -/

/-- The lock that a thread may hold while it executes `r`. -/
def Running.keeps (r : Running) : Option Lock :=
  match r.frames with
  | fr :: _ => fr.wants.or (fr.guards.map .object)
  | [] => none

/-- A thread holds no lock but the one of the section that it executes. -/
def Held (s : State) : Prop :=
  ∀ t L, s.lock L = some t → ∃ r, s.thr t = some r ∧ r.keeps = some L

theorem Held.keeps (h : Held s) {L : Lock} (ht : s.thr t = some r) (hl : s.lock L = some t) :
    r.keeps = some L := by
  obtain ⟨r', ht', hk⟩ := h t L hl
  rw [ht] at ht'
  cases ht'
  exact hk

/-- A thread holds at most one lock. -/
theorem Held.unique (h : Held s) {L L' : Lock} (hl : s.lock L = some t)
    (hl' : s.lock L' = some t) : L = L' := by
  obtain ⟨r, ht, hk⟩ := h t L hl
  have hk' := h.keeps ht hl'
  rw [hk] at hk'
  exact Option.some.inj hk'

/-- The thread `t` goes on with `r'`, and no lock is taken. -/
theorem Held.keep (h : Held s) (hthr : s'.thr = Function.update s.thr t (some r'))
    (hl : ∀ L t', s'.lock L = some t' → s.lock L = some t')
    (hk : ∀ L, s'.lock L = some t → r'.keeps = some L) : Held s' := by
  intro t' L hL
  by_cases he : t' = t
  · subst he
    refine ⟨r', ?_, hk L hL⟩
    rw [hthr, Function.update_self]
  · obtain ⟨r, ht', hr⟩ := h t' L (hl L t' hL)
    refine ⟨r, ?_, hr⟩
    rw [hthr, Function.update_of_ne he, ht']

/-- A section is left, and its lock is released. -/
theorem Held.released (h : Held s) (ht : s.thr t = some r)
    (hthr : s'.thr = Function.update s.thr t (some r')) {L : Lock} (hk : r.keeps = some L)
    (hlock : s'.lock = Function.update s.lock L none) : Held s' := by
  have hold : ∀ L' t', s'.lock L' = some t' → L' ≠ L ∧ s.lock L' = some t' := by
    intro L' t' hL'
    rw [hlock] at hL'
    by_cases he : L' = L
    · rw [he, Function.update_self] at hL'
      cases hL'
    · rw [Function.update_of_ne he] at hL'
      exact ⟨he, hL'⟩
  refine h.keep hthr (fun L' t' hL' => (hold L' t' hL').2) ?_
  intro L' hL'
  obtain ⟨hne, hL'⟩ := hold L' t hL'
  have hk' := h.keeps ht hL'
  rw [hk] at hk'
  exact absurd (Option.some.inj hk').symm hne

/-- The locks stay as they are, and so does what the thread may hold, if it holds anything. -/
theorem Held.same (h : Held s) (ht : s.thr t = some r)
    (hthr : s'.thr = Function.update s.thr t (some r')) (hlock : s'.lock = s.lock)
    (hk : r.keeps ≠ none → r'.keeps = r.keeps) : Held s' := by
  refine h.keep hthr (fun L t' hL => hlock ▸ hL) ?_
  intro L hL
  rw [hlock] at hL
  have hr := h.keeps ht hL
  rw [hk (by simp [hr]), hr]

theorem Quiet.keeps (hq : Quiet s c F F') : Running.keeps ⟨c, F⟩ = none := by
  cases hq <;> rfl

theorem Held.acquire (h : Held s) {L : Lock} (ht : s.thr t = some r) (hk : r.keeps = some L) :
    Held { s with lock := Function.update s.lock L (some t) } := by
  intro t' L' hL'
  by_cases he : L' = L
  · subst he
    rw [show t' = t by simpa using hL'.symm]
    exact ⟨r, ht, hk⟩
  · exact h t' L' ((Function.update_of_ne he _ _).symm.trans hL')

/-- **Every step keeps `Held`.** -/
theorem Held.step (hi : Inv s) (h : Held s) (hs : Step s s') : Held s' := by
  cases hs with
  | quiet ht hq => exact h.same ht rfl rfl fun hn => absurd hq.keeps hn
  | acquire L ht hw hl => exact h.acquire ht (by simp [Running.keeps, hw])
  | start w ht =>
    refine h.keep rfl (fun L t' hL => hL) ?_
    intro L hL
    obtain ⟨r, ht', -⟩ := h _ L hL
    rw [ht] at ht'
    cases ht'
  | timerWait ht hl =>
    intro t' L' hL'
    by_cases he : L' = .timer
    · subst he
      exact absurd hL' (by simp [State.release])
    · exact h t' L' ((Function.update_of_ne he _ _).symm.trans hL')
  | @switch t f d src rest x n ht hd =>
    obtain ⟨rfl, -, rfl, hcut⟩ := hi.switch_target ht hd
    rw [hcut]
    refine h.same ht rfl rfl ?_
    intro hn
    cases d with
    | unlock o => rfl
    | enqueue | recycle | timerAdd => exact absurd rfl hn
  | loopSwitch ht hd => exact h.same ht rfl rfl fun hn => absurd rfl hn
  | @copyFiber t f g d rest ht | @copyThread t f d rest ht | @push t f d src rest x n ht hd =>
    refine h.same ht rfl rfl ?_
    intro hn
    cases d with
    | unlock o => rfl
    | enqueue | recycle | timerAdd => exact absurd rfl hn
  | @object t f o op rest ht hl =>
    cases hout : ((s.obj o).critical op f).2 with
    | block => exact h.same ht rfl (by simp [Outcome.holds]) fun _ => rfl
    | ret | wake g | transfer g | drain gs =>
      exact h.released ht rfl rfl (by simp [Outcome.holds])
  | store ht | signal ht | signalNext ht | loopWake ht | loopCopy ht | queryMemory ht
  | spawnNew _ ht => exact h.same ht rfl rfl fun hn => absurd rfl hn
  | yieldEmpty ht | availEmpty ht | availPop ht | enqueueIdle ht | enqueueTail ht | listTail ht
  | listTake ht | backIdle ht | backSteal ht | loopIdle ht | loopPop ht | unlock ht | recycle ht
  | timerAdd ht | expire _ ht | spawnPop ht | spawnEmpty ht => exact h.released ht rfl rfl rfl

theorem Reached.held (h : Reached s) : Held s := by
  refine h.invariant_from (fun _ => Reached.inv) ?_ fun _ _ hi hh hs => hh.step hi hs
  intro s ⟨obj, _, hs⟩ t L hL
  rw [hs] at hL
  cases hL

/-- The step is not one of the thread `t`: what it executes and the locks it holds stay. -/
structure Aside (t : Thr) (s s' : State) : Prop where
  thr : s'.thr t = s.thr t
  lock : ∀ L, s'.lock L = some t ↔ s.lock L = some t

/-- A lock that a step leaves alone or takes away from nobody but the thread that steps. -/
theorem Step.lock_taken (hs : Step s s') {L : Lock} (hl : s'.lock L = some t) :
    s.lock L = some t ∨ s'.thr = s.thr := by
  cases hs with
  | acquire L' ht hw hn => exact .inr rfl
  | timerWait ht hn => exact .inr rfl
  | @object t' f o op rest ht hn =>
    dsimp only at hl
    split at hl
    · exact .inl hl
    · by_cases he : L = .object o
      · simp [he] at hl
      · exact .inl ((Function.update_of_ne he _ _).symm.trans hl)
  | yieldEmpty | availEmpty | availPop | enqueueIdle | enqueueTail | listTail | listTake | backIdle
  | backSteal | loopIdle | loopPop | unlock | recycle | timerAdd | expire | spawnPop
  | spawnEmpty =>
    refine .inl ?_
    simp only [State.release, State.setDesc, State.run, Function.update_apply] at hl
    split at hl
    · cases hl
    · exact hl
  | _ => exact .inl hl

/-- The frames of a switch target: the deferred release comes first. -/
theorem Held.switch_unlock (h : Held s) {f : Fid} {d : Deferred} {src : Option Fid}
    {rest : List Frame} (ht : s.thr t = some ⟨.fiber f, .switch d src :: rest⟩) {L : Lock}
    (hl : s.lock L = some t) : ∃ o, L = .object o ∧ d = .unlock o := by
  have hk := h.keeps ht hl
  cases d with
  | unlock o => exact ⟨o, (Option.some.inj hk).symm, rfl⟩
  | enqueue | recycle | timerAdd => cases hk

section
variable (hne : t ≠ t')
include hne

theorem Aside.other (hthr : s'.thr = Function.update s.thr t' (some r'))
    (hlock : s'.lock = s.lock) : Aside t s s' where
  thr := by rw [hthr, Function.update_of_ne hne]
  lock L := by rw [hlock]

theorem Aside.other_released {L : Lock} (hthr : s'.thr t = s.thr t) (hl : s.lock L = some t')
    (hlock : s'.lock = Function.update s.lock L none) : Aside t s s' where
  thr := hthr
  lock L' := by
    rw [hlock]
    by_cases he : L' = L
    · rw [he, Function.update_self, hl]
      simp [hne.symm]
    · rw [Function.update_of_ne he]

end

/-- A frame that has one thing left to do, whatever the other threads do. -/
def Frame.committed : Frame → Bool
  | unlock _ | switch _ _ => true
  | _ => false

/-- What a thread at such a frame does: nothing yet, the release, or the switch. -/
theorem Step.committed (hi : Inv s) {fr : Frame} (ht : s.thr t = some ⟨x, fr :: F⟩)
    (hc : fr.committed = true) (hs : Step s s') :
    Aside t s s' ∨ (∃ o, fr = .unlock o ∧ s' = (s.run t x F).release (.object o)) ∨
      ∃ d src, fr = .switch d src ∧ s'.lock = s.lock ∧
        s'.thr t = some ⟨target t src, [d.frame, base (target t src)]⟩ := by
  have hne : ∀ {t' c fr' rest}, s.thr t' = some ⟨c, fr' :: rest⟩ → fr'.committed = false →
      t ≠ t' := by
    intro t' c fr' rest ht' hfr
    apply ne_of_frame ht ht'
    rintro rfl
    rw [hc] at hfr
    cases hfr
  have hsame : ∀ {t' c fr' rest r'} {s' : State}, s.thr t' = some ⟨c, fr' :: rest⟩ →
      fr'.committed = false → s'.thr = Function.update s.thr t' (some r') → s'.lock = s.lock →
      Aside t s s' := by
    intro t' c fr' rest r' s' ht' hfr hthr hlock
    exact .other (hne ht' hfr) hthr hlock
  have hrel : ∀ {t' c fr' rest r' L} {s' : State}, s.thr t' = some ⟨c, fr' :: rest⟩ →
      fr'.committed = false → s'.thr = Function.update s.thr t' (some r') → s.lock L = some t' →
      s'.lock = Function.update s.lock L none → Aside t s s' := by
    intro t' c fr' rest r' L s' ht' hfr hthr hl hlock
    have he : t ≠ t' := hne ht' hfr
    exact .other_released he (by rw [hthr, Function.update_of_ne he]) hl hlock
  cases hs with
  | @quiet t' c F₁ F₂ ht' hq =>
    refine .inl (.other ?_ rfl rfl)
    rintro rfl
    rw [ht] at ht'
    cases ht'
    cases hq <;> cases hc
  | @acquire t' c fr' rest L ht' hw hl =>
    refine .inl ⟨rfl, ?_⟩
    intro L'
    have hn : t ≠ t' := hne ht' (by cases fr' <;> first | rfl | cases hw)
    by_cases he : L' = L
    · rw [he, hl]
      simp [hn.symm]
    · exact iff_of_eq (congrArg (· = some t) (Function.update_of_ne he _ _))
  | start w hn =>
    refine .inl (.other ?_ rfl rfl)
    rintro rfl
    rw [ht] at hn
    cases hn
  | timerWait ht' hl => exact .inl (.other_released (hne ht' rfl) rfl hl rfl)
  | @unlock t' c o' rest ht' =>
    by_cases he : t = t'
    · subst he
      rw [ht] at ht'
      cases ht'
      exact .inr (.inl ⟨o', rfl, rfl⟩)
    · have hl := hi.locks.held _ _ _ _ o' ht' rfl
      exact .inl (.other_released he (Function.update_of_ne he _ _) hl rfl)
  | @switch t' f d src rest y n ht' hd =>
    by_cases he : t = t'
    · subst he
      rw [ht] at ht'
      cases ht'
      obtain ⟨rfl, -, rfl, hcut⟩ := hi.switch_target ht hd
      refine .inr (.inr ⟨d, src, rfl, rfl, ?_⟩)
      rw [hcut]
      exact Function.update_self _ _ _
    · exact .inl (.other he rfl rfl)
  | @object t' f o' op rest ht' hl =>
    cases hout : ((s.obj o').critical op f).2 with
    | block => exact .inl (hsame ht' rfl rfl (by simp [Outcome.holds]))
    | ret | wake g | transfer g | drain gs =>
      exact .inl (hrel ht' rfl rfl hl (by simp [Outcome.holds]))
  | copyFiber ht' | copyThread ht' | push ht' | store ht' | signal ht' | signalNext ht'
  | loopWake ht' | loopCopy ht' | loopSwitch ht' | queryMemory ht' | spawnNew _ ht' =>
    exact .inl (hsame ht' rfl rfl rfl)
  | yieldEmpty ht' hl | availEmpty ht' hl | availPop ht' hl | enqueueIdle ht' hl
  | enqueueTail ht' hl | listTail ht' hl | listTake ht' hl | backIdle ht' hl | backSteal ht' hl
  | loopIdle ht' hl | loopPop ht' hl | recycle ht' hl | timerAdd ht' hl | expire _ ht' hl
  | spawnPop ht' hl | spawnEmpty ht' hl => exact .inl (hrel ht' rfl rfl hl rfl)

/-- **The first thing a thread does** when it has a deferred release to execute is that release. -/
theorem Step.first (hi : Inv s) (ht : s.thr t = some ⟨x, .unlock o :: F⟩) (hs : Step s s') :
    Aside t s s' ∨ s' = (s.run t x F).release (.object o) := by
  rcases hs.committed hi ht rfl with ha | ⟨o', ho, hs'⟩ | ⟨d, src, hfr, -⟩
  · exact .inl ha
  · cases ho
    exact .inr hs'
  · cases hfr

/-- A switch goes to its target, with the deferred operation on top. -/
theorem Step.switched (hi : Inv s) {d : Deferred} {src : Option Fid}
    (ht : s.thr t = some ⟨x, .switch d src :: F⟩) (hs : Step s s') :
    Aside t s s' ∨ (s'.lock = s.lock ∧
      s'.thr t = some ⟨target t src, [d.frame, base (target t src)]⟩) := by
  rcases hs.committed hi ht rfl with ha | ⟨o', hfr, -⟩ | ⟨d', src', hfr, hs'⟩
  · exact .inl ha
  · cases hfr
  · cases hfr
    exact .inr hs'

/-! ## The other two locks -/

/-- The sections under `tlist_init_lock` and `pool_lock`. -/
inductive Section
  /-- `work_thread_entry`: the thread links itself in `thread_list`. -/
  | threadList
  | queryMemory
  | insertMemory
  deriving DecidableEq, Repr

inductive AnyLock
  | sched (L : Lock)
  | tlistInit
  | pool
  deriving DecidableEq, Repr

namespace Section

def lock : Section → AnyLock
  | threadList => .tlistInit
  | queryMemory | insertMemory => .pool

/-- A thread may enter the second section while another one is in the first. -/
def admits : Section → Section → Bool
  | queryMemory, queryMemory => true
  | k, k' => decide (k.lock ≠ k'.lock)

/-- Where the section lies in the code of `Step`: right before what the frame does. -/
def At : Section → Frame → Prop
  | threadList, .loopTop | queryMemory, .queryMemory _ | insertMemory, .spawnNew => True
  | _, _ => False

end Section

/-- A section that a thread has come to, and whether it holds the section's lock. -/
structure Detour where
  sec : Section
  held : Bool

/-- The section that a thread comes to when it goes on from `r` to `r'`. -/
def arrive (r r' : Option Running) : Option Detour :=
  match r, r' with
  | none, some ⟨_, .loopTop :: _⟩ => some ⟨.threadList, false⟩
  | some ⟨_, .spawn :: _⟩, some ⟨_, .queryMemory _ :: _⟩ => some ⟨.queryMemory, false⟩
  | some ⟨_, .spawn :: _⟩, some ⟨_, .spawnNew :: _⟩ => some ⟨.insertMemory, false⟩
  | _, _ => none

structure LockState where
  sched : State
  detour : Thr → Option Detour

/-- The steps of the scheduler, of threads that have no section to pass, and those that take and
release the locks of the sections. -/
inductive LockStep : LockState → LockState → Prop
  | sched {s : LockState} {s' : State} (h : Step s.sched s')
      (ha : ∀ t, s.detour t ≠ none → Aside t s.sched s') :
      LockStep s ⟨s', fun t => (s.detour t).or (arrive (s.sched.thr t) (s'.thr t))⟩
  | lock {s : LockState} (t : Thr) (k : Section) (ht : s.detour t = some ⟨k, false⟩)
      (hfree : ∀ t' k', s.detour t' = some ⟨k', true⟩ → k'.admits k = true) :
      LockStep s { s with detour := Function.update s.detour t (some ⟨k, true⟩) }
  | unlock {s : LockState} (t : Thr) (k : Section) (ht : s.detour t = some ⟨k, true⟩) :
      LockStep s { s with detour := Function.update s.detour t none }

abbrev LockReached : LockState → Prop :=
  Reachable (fun s => ∃ obj, (∀ o, (obj o).Fresh) ∧ s = ⟨.start obj, fun _ => none⟩) LockStep

namespace LockState

def Holds (s : LockState) (t : Thr) : AnyLock → Prop
  | .sched L => s.sched.lock L = some t
  | L => ∃ k, s.detour t = some ⟨k, true⟩ ∧ k.lock = L

/-- The thread can go on only with the lock, which it does not hold. -/
def Wants (s : LockState) (t : Thr) : AnyLock → Prop
  | .sched L => s.detour t = none ∧ s.sched.lock L ≠ some t ∧
      ∃ c fr rest, s.sched.thr t = some ⟨c, fr :: rest⟩ ∧ fr.wants = some L
  | L => ∃ k, s.detour t = some ⟨k, false⟩ ∧ k.lock = L

end LockState

/-- A thread with a section to pass is where the section lies, and holds no lock of `Step`. -/
structure Detours (s : LockState) : Prop where
  place : ∀ t d, s.detour t = some d →
    ∃ c fr rest, s.sched.thr t = some ⟨c, fr :: rest⟩ ∧ d.sec.At fr
  clear : ∀ t d, s.detour t = some d → ∀ L, s.sched.lock L ≠ some t

theorem arrive_at {r r' : Option Running} {d : Detour} (h : arrive r r' = some d) :
    ∃ c fr rest, r' = some ⟨c, fr :: rest⟩ ∧ d.sec.At fr := by
  unfold arrive at h
  split at h
  · cases h
    exact ⟨_, _, _, rfl, trivial⟩
  · cases h
    exact ⟨_, _, _, rfl, trivial⟩
  · cases h
    exact ⟨_, _, _, rfl, trivial⟩
  · cases h

theorem arrive_same (r : Option Running) : arrive r r = none := by
  rcases r with _ | ⟨c, F⟩
  · rfl
  · rcases F with _ | ⟨fr, rest⟩
    · rfl
    · cases fr <;> rfl

/-- A thread arrives at a section with no lock. -/
theorem arrive_clear {d : Detour} (hh : Held s) (hh' : Held s') (hs : Step s s')
    (h : arrive (s.thr t) (s'.thr t) = some d) (L : Lock) : s'.lock L ≠ some t := by
  intro hl
  rcases hs.lock_taken hl with hl | hthr
  · obtain ⟨r, ht, hk⟩ := hh t L hl
    obtain ⟨r', ht', hk'⟩ := hh' t L ‹_›
    rw [ht, ht'] at h
    unfold arrive at h
    split at h
    · cases ‹some r = none›
    · cases ‹some r' = _›
      cases hk'
    · cases ‹some r' = _›
      cases hk'
    · cases h
  · rw [hthr, arrive_same] at h
    cases h

variable {u u' v : LockState}

theorem LockReached.sched (h : LockReached u) : Reached u.sched := by
  obtain ⟨u₀, ⟨obj, ho, rfl⟩, hr⟩ := h
  induction hr with
  | refl => exact .start ⟨obj, ho, rfl⟩
  | tail _ hs ih =>
    cases hs with
    | sched h ha => exact ih.next h
    | lock | unlock => exact ih

/-- A thread on a detour was on it before. -/
theorem Detours.keep (h : Detours u) (hs : u'.sched = u.sched)
    (hd : ∀ t d, u'.detour t = some d → ∃ d', u.detour t = some d' ∧ d'.sec = d.sec) :
    Detours u' := by
  refine ⟨?_, ?_⟩
  · intro t d ht
    obtain ⟨d', ht', he⟩ := hd t d ht
    rw [hs, ← he]
    exact h.place t d' ht'
  · intro t d ht
    obtain ⟨d', ht', -⟩ := hd t d ht
    rw [hs]
    exact h.clear t d' ht'

/-- The detour of a thread after a step is the one it was on, or one it has just come to. -/
theorem Detours.step (hr : Reached u.sched) (hr' : Reached u'.sched) (h : Detours u)
    (hs : LockStep u u') : Detours u' := by
  cases hs with
  | @sched s' hs ha =>
    have hcase : ∀ t d, (u.detour t).or (arrive (u.sched.thr t) (s'.thr t)) = some d →
        (u.detour t = some d ∧ Aside t u.sched s') ∨
          arrive (u.sched.thr t) (s'.thr t) = some d := by
      intro t d hd
      cases ht : u.detour t with
      | none =>
        rw [ht, Option.none_or] at hd
        exact .inr hd
      | some d' =>
        rw [ht, Option.some_or] at hd
        exact .inl ⟨hd, ha t (by simp [ht])⟩
    refine ⟨?_, ?_⟩
    · intro t d hd
      rcases hcase t d hd with ⟨hd, hat⟩ | hd
      · obtain ⟨c, fr, rest, ht, hfr⟩ := h.place t d hd
        exact ⟨c, fr, rest, hat.thr.trans ht, hfr⟩
      · exact arrive_at hd
    · intro t d hd L hl
      rcases hcase t d hd with ⟨hd, hat⟩ | hd
      · exact h.clear t d hd L ((hat.lock L).1 hl)
      · exact arrive_clear hr.held hr'.held hs hd L hl
  | lock t k ht hfree =>
    refine h.keep rfl ?_
    intro t' d hd
    by_cases he : t' = t
    · subst he
      rw [show d = ⟨k, true⟩ by simpa using hd.symm]
      exact ⟨_, ht, rfl⟩
    · exact ⟨d, (Function.update_of_ne he _ _).symm.trans hd, rfl⟩
  | unlock t k ht =>
    refine h.keep rfl ?_
    intro t' d hd
    by_cases he : t' = t
    · exact absurd hd (by simp [he])
    · exact ⟨d, (Function.update_of_ne he _ _).symm.trans hd, rfl⟩

theorem LockReached.detours (h : LockReached u) : Detours u := by
  obtain ⟨u₀, ⟨obj, ho, rfl⟩, hr⟩ := h
  have h0 : LockReached ⟨.start obj, fun _ => none⟩ := .start ⟨obj, ho, rfl⟩
  induction hr with
  | refl => exact ⟨nofun, nofun⟩
  | tail hr hs ih =>
    have hb : LockReached _ := h0.run hr
    have hc : LockReached _ := hb.next hs
    exact ih.step hb.sched hc.sched hs

/-! ## The result -/

namespace LockState

theorem Holds.cases {L : AnyLock} (h : u.Holds t L) :
    (∃ L', L = .sched L' ∧ u.sched.lock L' = some t) ∨
      ∃ k, u.detour t = some ⟨k, true⟩ ∧ k.lock = L := by
  cases L with
  | sched L => exact .inl ⟨L, rfl, h⟩
  | tlistInit | pool => exact .inr h

theorem Wants.cases {L : AnyLock} (h : u.Wants t L) :
    (u.detour t = none ∧ ∃ L', L = .sched L' ∧ u.sched.lock L' ≠ some t ∧
      ∃ c fr rest, u.sched.thr t = some ⟨c, fr :: rest⟩ ∧ fr.wants = some L') ∨
      ∃ k, u.detour t = some ⟨k, false⟩ := by
  cases L with
  | sched L => exact .inl ⟨h.1, L, rfl, h.2⟩
  | tlistInit | pool => exact .inr ⟨h.choose, h.choose_spec.1⟩

/-- The thread `t` waits for a lock that `t'` holds. -/
def WaitsFor (u : LockState) (t t' : Thr) : Prop := ∃ L, u.Wants t L ∧ u.Holds t' L

end LockState

/-- A frame of a thread that runs user code, waits on its semaphore or is to leave its loop. -/
def Frame.outside : Frame → Bool
  | user | loopPark | loopSwitch => true
  | _ => false

/-- The thread has not moved since `u`, and holds the lock of `o`. -/
def Pending (t : Thr) (o : Oid) (u v : LockState) : Prop :=
  v.sched.thr t = u.sched.thr t ∧ v.Holds t (.sched (.object o))

/-- The step in which the thread `t` releases the lock of `o`; it changes nothing else. -/
def Releases (t : Thr) (o : Oid) (u u' : LockState) : Prop :=
  LockStep u u' ∧ ∃ x F, u.sched.thr t = some ⟨x, .unlock o :: F⟩ ∧
    u'.sched = (u.sched.run t x F).release (.object o)

namespace LockReached

theorem unique (h : LockReached u) {L L' : AnyLock} (hl : u.Holds t L) (hl' : u.Holds t L') :
    L = L' := by
  have hd := h.detours
  rcases hl.cases with ⟨M, rfl, hM⟩ | ⟨k, hk, rfl⟩
  · rcases hl'.cases with ⟨M', rfl, hM'⟩ | ⟨k', hk', rfl⟩
    · rw [h.sched.held.unique hM hM']
    · exact absurd hM (hd.clear t _ hk' M)
  · rcases hl'.cases with ⟨M', rfl, hM'⟩ | ⟨k', hk', rfl⟩
    · exact absurd hM' (hd.clear t _ hk M')
    · rw [hk] at hk'
      cases hk'
      rfl

/-- Who waits for a lock holds none. -/
theorem wants (h : LockReached u) {L L' : AnyLock} (hw : u.Wants t L) : ¬ u.Holds t L' := by
  intro hl
  have hd := h.detours
  rcases hw.cases with ⟨hn, M, rfl, hne, c, fr, rest, ht, hM⟩ | ⟨k, hk⟩
  · rcases hl.cases with ⟨M', rfl, hM'⟩ | ⟨k', hk', rfl⟩
    · have he := h.sched.held.keeps ht hM'
      simp only [Running.keeps, hM, Option.some_or] at he
      cases he
      exact hne hM'
    · rw [hn] at hk'
      cases hk'
  · rcases hl.cases with ⟨M', rfl, hM'⟩ | ⟨k', hk', rfl⟩
    · exact hd.clear t _ hk M' hM'
    · rw [hk] at hk'
      cases hk'

theorem acyclic (h : LockReached u) : ¬ Relation.TransGen u.WaitsFor t t := by
  intro hc
  obtain ⟨t', ⟨L, hw, -⟩, -⟩ := Relation.TransGen.head'_iff.1 hc
  obtain ⟨t'', -, L', -, hl⟩ := Relation.TransGen.tail'_iff.1 hc
  exact h.wants hw hl

theorem outside (h : LockReached u) {c : Ctx} {fr : Frame} {rest : List Frame}
    (ht : u.sched.thr t = some ⟨c, fr :: rest⟩) (hfr : fr.outside = true) (L : AnyLock) :
    ¬ u.Holds t L := by
  intro hl
  rcases hl.cases with ⟨M, rfl, hM⟩ | ⟨k, hk, rfl⟩
  · have hk := h.sched.held.keeps ht hM
    cases fr with
    | user | loopPark | loopSwitch => cases hk
    | _ => cases hfr
  · obtain ⟨c', fr', rest', ht', hat⟩ := h.detours.place t _ hk
    rw [ht] at ht'
    cases ht'
    cases fr with
    | user | loopPark | loopSwitch => cases k <;> exact hat.elim
    | _ => cases hfr

/-- Only a lock of an object is held at a switch, and its release is the deferred operation. -/
theorem switch (h : LockReached u) {f : Fid} {d : Deferred} {src : Option Fid} {rest : List Frame}
    (ht : u.sched.thr t = some ⟨.fiber f, .switch d src :: rest⟩) {L : AnyLock}
    (hl : u.Holds t L) : ∃ o, L = .sched (.object o) ∧ d = .unlock o := by
  rcases hl.cases with ⟨M, rfl, hM⟩ | ⟨k, hk, rfl⟩
  · obtain ⟨o, rfl, rfl⟩ := h.sched.held.switch_unlock ht hM
    exact ⟨o, rfl, rfl⟩
  · obtain ⟨c', fr', rest', ht', hat⟩ := h.detours.place t _ hk
    rw [ht] at ht'
    cases ht'
    cases k <;> exact hat.elim

/-- The switch under the lock of `o`: on the other side its release is what comes first. -/
theorem switched (h : LockReached u) {src : Option Fid} {rest : List Frame}
    (ht : u.sched.thr t = some ⟨x, .switch (.unlock o) src :: rest⟩)
    (hl : u.sched.lock (.object o) = some t) (hs : LockStep u u')
    (hne : u'.sched.thr t ≠ u.sched.thr t) :
    u'.sched.thr t = some ⟨target t src, [.unlock o, base (target t src)]⟩ ∧
      u'.Holds t (.sched (.object o)) := by
  cases hs with
  | @sched s' hs ha =>
    rcases hs.switched h.sched.inv ht with hat | ⟨hlock, hthr⟩
    · exact absurd hat.thr hne
    · refine ⟨hthr, ?_⟩
      show s'.lock (.object o) = some t
      rw [hlock, hl]
  | lock | unlock => exact absurd rfl hne

/-- While the deferred release is pending, only the thread's own step changes anything for it, and
that step is the release. -/
theorem pending (h : LockReached u) (ht : u.sched.thr t = some ⟨x, .unlock o :: F⟩)
    (hl : u.Holds t (.sched (.object o))) (hr : Relation.ReflTransGen LockStep u v) :
    Pending t o u v ∨ ∃ w w', Relation.ReflTransGen LockStep u w ∧ Pending t o u w ∧
      Releases t o w w' ∧ Relation.ReflTransGen LockStep w' v := by
  induction hr with
  | refl => exact .inl ⟨rfl, hl⟩
  | @tail v v' huv hs ih =>
    rcases ih with hp | ⟨w, w', huw, hp, hrel, hwv⟩
    · have hv : LockReached v := h.run huv
      have hstep := hs
      cases hs with
      | @sched s' hs ha =>
        rcases hs.first hv.sched.inv (hp.1.trans ht) with hat | hs'
        · exact .inl ⟨hat.thr.trans hp.1, (hat.lock _).2 hp.2⟩
        · exact .inr ⟨v, _, huv, hp, ⟨hstep, x, F, hp.1.trans ht, hs'⟩, .refl⟩
      | lock | unlock => exact .inl hp
    · exact .inr ⟨w, w', huw, hp, hrel, hwv.tail hs⟩

end LockReached

/-- **Locks form no cycle and stay with no suspended fiber.** In every reachable state

* a thread holds at most one lock, and none while it waits for one, so that the threads do not wait
  for each other in a cycle;
* it holds none while it runs user code, waits on its semaphore or is about to leave its loop;
* if it is at a `fiber_switch` with a lock, the lock is that of an object, and its release is the
  deferred operation of the switch; on the other side of the switch the thread still holds it, and
  in every run from there the first step of the thread is that release. -/
theorem locks_released (h : LockReached u) :
    (∀ t L L', u.Holds t L → u.Holds t L' → L = L') ∧
    (∀ t L L', u.Wants t L → ¬ u.Holds t L') ∧ (∀ t, ¬ Relation.TransGen u.WaitsFor t t) ∧
    (∀ t c fr rest, u.sched.thr t = some ⟨c, fr :: rest⟩ → fr.outside = true →
      ∀ L, ¬ u.Holds t L) ∧
    ∀ t f d src rest L, u.sched.thr t = some ⟨.fiber f, .switch d src :: rest⟩ → u.Holds t L →
      ∃ o, L = .sched (.object o) ∧ d = .unlock o ∧ ∀ u', LockStep u u' →
        u'.sched.thr t ≠ u.sched.thr t →
        u'.sched.thr t = some ⟨target t src, [.unlock o, base (target t src)]⟩ ∧ u'.Holds t L ∧
        ∀ v, Relation.ReflTransGen LockStep u' v → Pending t o u' v ∨
          ∃ w w', Relation.ReflTransGen LockStep u' w ∧ Pending t o u' w ∧ Releases t o w w' ∧
            Relation.ReflTransGen LockStep w' v := by
  refine ⟨fun t L L' => h.unique, fun t L L' => h.wants, fun t => h.acyclic,
    fun t c fr rest ht hfr => h.outside ht hfr, ?_⟩
  intro t f d src rest L ht hl
  obtain ⟨o, rfl, rfl⟩ := h.switch ht hl
  refine ⟨o, rfl, rfl, ?_⟩
  intro u' hs hne
  obtain ⟨ht', hl'⟩ := h.switched ht hl hs hne
  have hu' : LockReached u' := h.next hs
  exact ⟨ht', hl', fun v hr => hu'.pending ht' hl' hr⟩

/-- A step of the scheduler in which nobody comes to a section. -/
theorem LockStep.plain (hs : Step s s') (ha : ∀ t, arrive (s.thr t) (s'.thr t) = none) :
    LockStep ⟨s, fun _ => none⟩ ⟨s', fun _ => none⟩ := by
  have hn : LockStep ⟨s, fun _ => none⟩ _ := .sched hs fun t ht => absurd rfl ht
  simp only [Option.none_or] at hn
  rwa [funext ha] at hn

theorem LockStep.alone (hs : Step s s') (ht : s.thr t = some r)
    (hthr : s'.thr = Function.update s.thr t (some r')) (ha : arrive (some r) (some r') = none) :
    LockStep ⟨s, fun _ => none⟩ ⟨s', fun _ => none⟩ := by
  apply LockStep.plain hs
  intro t'
  by_cases he : t' = t
  · rw [he, hthr, Function.update_self, ht, ha]
  · rw [hthr, Function.update_of_ne he, arrive_same]

/-- A thread goes on, and does not come to a section. -/
theorem LockReached.alone (h : LockReached ⟨s, fun _ => none⟩) (hs : Step s s')
    (ht : s.thr t = some r) (hthr : s'.thr = Function.update s.thr t (some r'))
    (ha : arrive (some r) (some r') = none) : LockReached ⟨s', fun _ => none⟩ :=
  h.next (.alone hs ht hthr ha)

theorem LockReached.still (h : LockReached ⟨s, fun _ => none⟩) (hs : Step s s')
    (hthr : s'.thr = s.thr) : LockReached ⟨s', fun _ => none⟩ := by
  apply h.next (.plain hs ?_)
  intro t
  rw [hthr, arrive_same]

/-- The main fiber locks a mutex twice: it switches to its thread's loop with the mutex's lock, and
the loop releases it. -/
theorem locks_released_run : ∃ u u' v, LockReached u ∧ u.Holds (.work 0) (.sched (.object 0)) ∧
    LockStep u u' ∧ LockStep u' v ∧ v.sched.thr (.work 0) = some ⟨.loop 0, [.loopTop]⟩ ∧
    (Pending (.work 0) 0 u' v ∨
      ∃ w w', Relation.ReflTransGen LockStep u' w ∧ Pending (.work 0) 0 u' w ∧
        Releases (.work 0) 0 w w' ∧ Relation.ReflTransGen LockStep w' v) := by
  have h0 : LockReached ⟨.start fun _ => .mutex .create, fun _ => none⟩ :=
    .start ⟨_, fun _ => .inl rfl, rfl⟩
  have h1 := h0.alone (.quiet (t := .work 0) rfl (.object 0 .lock rfl)) rfl rfl rfl
    |>.still (.acquire (t := .work 0) (.object 0) rfl rfl rfl) rfl
    |>.alone (.object (t := .work 0) rfl rfl) rfl rfl rfl
    |>.alone (.quiet (t := .work 0) rfl (.object 0 .lock rfl)) rfl rfl rfl
    |>.still (.acquire (t := .work 0) (.object 0) rfl rfl rfl) rfl
    |>.alone (.object (t := .work 0) rfl rfl) rfl rfl rfl
    |>.alone (.copyThread (w := 0) rfl) rfl rfl rfl
    |>.alone (.push (t := .work 0) rfl rfl) rfl rfl rfl
  obtain ⟨s, hs, ht, hl, hd, hsusp⟩ : ∃ s, LockReached ⟨s, fun _ => none⟩ ∧
      s.thr (.work 0) = some ⟨.fiber 0, [.switch (.unlock 0) none, .user]⟩ ∧
      s.lock (.object 0) = some (.work 0) ∧ s.desc 0 = some ⟨.loop 0, 2⟩ ∧
      s.susp (.loop 0) = [.unlock 0, .loopTop] := ⟨_, h1, rfl, rfl, rfl, rfl⟩
  obtain ⟨o, ho, -, hrun⟩ :=
    (locks_released hs).2.2.2.2 (.work 0) 0 _ _ _ (.sched (.object 0)) ht hl
  cases ho
  have hstep := Step.switch ht hd
  rw [hsusp] at hstep
  have hswitch := LockStep.alone hstep ht rfl rfl
  refine ⟨_, _, _, hs, hl, hswitch, .alone (.unlock (t := .work 0) rfl) rfl rfl rfl, rfl,
    (hrun _ hswitch ?_).2.2 _ (.single (.alone (.unlock (t := .work 0) rfl) rfl rfl rfl))⟩
  intro he
  rw [ht] at he
  cases he

end Sched
