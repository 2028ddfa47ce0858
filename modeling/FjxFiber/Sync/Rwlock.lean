import FjxFiber.Lib.CondVar
import FjxFiber.Lib.Reach

/-!
# Reader/writer locks (`src/std-thread.c`)

`fjx_rwlock` is three counters under a mutex, with one condition variable for the readers and the
writers. `rwlock` is its four operations as a monitor. A thread may call any of them at any time,
but the unlocks only while it holds the lock.

Who holds the lock is written down nowhere in the code. `Holders` records it: a thread is a holder
from the section that lets it in to the section of its unlock, as often as it was let in.

The counters are of type `int`, and nothing stops them at its maximum. `exclusive` is about the runs
in which they have room (`Counted`), `exclusive_overflows` about one in which they have not.
-/

set_option autoImplicit false

namespace Sync

open Lib

/-- `struct fjx_rwlock__`, less its mutex and its condition variable. -/
structure Rwlock where
  wWaited : Int32
  rReading : Int32
  onWrite : Int32
  deriving DecidableEq, Repr

namespace Rwlock

/-- `fjx_rwlock_init`. -/
def init : Rwlock := { wWaited := 0, rReading := 0, onWrite := 0 }

inductive Op
  | lockr
  | unlockr
  | lockw
  | unlockw
  deriving DecidableEq, Repr

/-- `fjx_rwlock_lockr`, `fjx_rwlock_unlockr`, `fjx_rwlock_lockw` and `fjx_rwlock_unlockw`. An `int`
that is incremented past its maximum, which C leaves undefined, wraps around. -/
def rwlock : CondVar.Spec Rwlock Op where
  enter
    | .lockw, l => { l with wWaited := l.wWaited + 1 }
    | _, l => l
  guard
    | .lockr, l => 0 < l.wWaited || l.onWrite ≠ 0
    | .lockw, l => 0 < l.rReading || l.onWrite ≠ 0
    | _, _ => false
  leave
    | .lockr, l => { l with rReading := l.rReading + 1 }
    | .unlockr, l => { l with rReading := l.rReading - 1 }
    | .lockw, l => { l with wWaited := l.wWaited - 1, onWrite := 1 }
    | .unlockw, l => { l with onWrite := 0 }
  notify
    | .unlockr, l => if l.rReading = 0 then .all else .none
    | .unlockw, _ => .all
    | _, _ => .none

/-- The threads that hold the lock, as often as they do. -/
structure Holders (ι : Type*) where
  readers : List ι
  writers : List ι

variable {ι : Type*} [DecidableEq ι]

namespace Holders

/-- What a call of the operation by `t` takes for granted. -/
def Held (h : Holders ι) (t : ι) : Op → Prop
  | .unlockr => t ∈ h.readers
  | .unlockw => t ∈ h.writers
  | _ => True

/-- The unlocks are called by holders. -/
def May (h : Holders ι) : Act ι Op → Prop
  | .call t a => h.Held t a
  | _ => True

def act (h : Holders ι) : Act ι Op → Holders ι
  | .pass t .lockr => { h with readers := t :: h.readers }
  | .pass t .unlockr => { h with readers := h.readers.erase t }
  | .pass t .lockw => { h with writers := t :: h.writers }
  | .pass t .unlockw => { h with writers := h.writers.erase t }
  | _ => h

end Holders

structure State (ι : Type*) where
  core : CondVar.State ι Rwlock Op
  holders : Holders ι

def State.start : State ι := { core := .start init, holders := { readers := [], writers := [] } }

structure Step (s : State ι) (act : Act ι Op) (s' : State ι) : Prop where
  core : CondVar.Step rwlock s.core act s'.core
  may : s.holders.May act
  holders : s'.holders = s.holders.act act

abbrev Reached : State ι → Prop := Reachable (fun s => s = .start) fun s s' => ∃ act, Step s act s'

/-! ## Room in the counters -/

/-- `fjx_rwlock_lockw` may increment `w_waited`. -/
def RoomToWait : Op → Rwlock → Prop
  | .lockw, l => l.wWaited < Int32.maxValue
  | _, _ => True

/-- `fjx_rwlock_lockr` may increment `r_reading`. -/
def RoomToRead : Op → Rwlock → Prop
  | .lockr, l => l.rReading < Int32.maxValue
  | _, _ => True

/-- The steps that increment no counter past its maximum. -/
structure Counted (s : State ι) (act : Act ι Op) (s' : State ι) : Prop where
  step : Step s act s'
  room : CondVar.Allowed RoomToWait RoomToRead s.core act s'.core

/-- The states reached by such steps. -/
abbrev CountedReached : State ι → Prop :=
  Reachable (fun s => s = .start) fun s s' => ∃ act, Counted s act s'

theorem maxValue_toInt : Int32.maxValue.toInt = 2147483647 := rfl

theorem toInt_add_one {x : Int32} (h : x < Int32.maxValue) : (x + 1).toInt = x.toInt + 1 := by
  rw [Int32.lt_iff_toInt_lt, maxValue_toInt] at h
  have hle := x.le_toInt
  rw [Int32.toInt_add, Int32.toInt_one]
  exact Int.bmod_eq_of_le (by omega) (by omega)

theorem toInt_sub_one {x : Int32} (h : 0 < x.toInt) : (x - 1).toInt = x.toInt - 1 := by
  have hlt := x.toInt_lt
  rw [Int32.toInt_sub, Int32.toInt_one]
  exact Int.bmod_eq_of_le (by omega) (by omega)

theorem pos_iff {x : Int32} : 0 < x ↔ 0 < x.toInt := by
  rw [Int32.lt_iff_toInt_lt, Int32.toInt_zero]

theorem eq_zero_iff {x : Int32} : x = 0 ↔ x.toInt = 0 := by
  rw [← Int32.toInt_inj, Int32.toInt_zero]

variable {s s' : State ι} {act : Act ι Op}

omit [DecidableEq ι] in
theorem allowed_of_lt {c c' : CondVar.State ι Rwlock Op} (hw : c.mem.wWaited < Int32.maxValue)
    (hr : c.mem.rReading < Int32.maxValue) :
    CondVar.Allowed RoomToWait RoomToRead c act c' where
  enter t a _ _ := by
    cases a with
    | lockw => exact hw
    | lockr | unlockr | unlockw => trivial
  leave t a _ := by
    cases a with
    | lockr => exact hr
    | unlockr | lockw | unlockw => trivial

/-! ## The guards -/

theorem guard_lockr (l : Rwlock) :
    rwlock.guard .lockr l = true ↔ 0 < l.wWaited.toInt ∨ l.onWrite ≠ 0 := by
  simp [rwlock, pos_iff]

theorem guard_lockw (l : Rwlock) :
    rwlock.guard .lockw l = true ↔ 0 < l.rReading.toInt ∨ l.onWrite ≠ 0 := by
  simp [rwlock, pos_iff]

theorem guard_lockr_false {l : Rwlock} (h : rwlock.guard .lockr l = false) :
    l.wWaited.toInt ≤ 0 ∧ l.onWrite.toInt = 0 := by
  have hn := mt (guard_lockr l).2 (by rw [h]; decide)
  rw [← eq_zero_iff]
  exact ⟨by omega, by_contra fun ho => hn (.inr ho)⟩

theorem guard_lockw_false {l : Rwlock} (h : rwlock.guard .lockw l = false) :
    l.rReading.toInt ≤ 0 ∧ l.onWrite.toInt = 0 := by
  have hn := mt (guard_lockw l).2 (by rw [h]; decide)
  rw [← eq_zero_iff]
  exact ⟨by omega, by_contra fun ho => hn (.inr ho)⟩

/-- Only the locks wait. -/
theorem guard_cases {a : Op} {l : Rwlock} (h : rwlock.guard a l = true) :
    a = .lockr ∨ a = .lockw := by
  cases a with
  | lockr => exact .inl rfl
  | lockw => exact .inr rfl
  | unlockr | unlockw => cases h

/-- Every operation that makes a guard false wakes all that wait: a reader that leaves as the last
one, and a writer that leaves. A writer that is let in waits no more, but keeps the readers out. -/
theorem broadcasts : rwlock.Broadcasts RoomToWait RoomToRead where
  enter a b m hE ha := by
    cases b with
    | lockr | unlockr | unlockw => exact ha
    | lockw =>
      rcases guard_cases ha with rfl | rfl
      · rw [guard_lockr] at ha ⊢
        show 0 < (m.wWaited + 1).toInt ∨ m.onWrite ≠ 0
        rw [toInt_add_one hE]
        exact ha.imp_left fun h0 => by omega
      · exact ha
  leave a b m hL hb ha := by
    cases b with
    | lockr =>
      left
      rcases guard_cases ha with rfl | rfl
      · exact ha
      · rw [guard_lockw] at ha ⊢
        show 0 < (m.rReading + 1).toInt ∨ m.onWrite ≠ 0
        rw [toInt_add_one hL]
        exact ha.imp_left fun h0 => by omega
    | unlockr =>
      rcases guard_cases ha with rfl | rfl
      · exact .inl ha
      · rw [guard_lockw] at ha ⊢
        show (0 < (m.rReading - 1).toInt ∨ m.onWrite ≠ 0) ∨
          (if m.rReading - 1 = 0 then CondVar.Notify.all else .none) = .all
        by_cases hr : 0 < m.rReading.toInt
        · have hsub := toInt_sub_one hr
          split
          · exact .inr rfl
          · next hne =>
            rw [eq_zero_iff] at hne
            omega
        · exact .inl (.inr (ha.resolve_left hr))
    | lockw =>
      have hone : (1 : Int32) ≠ 0 := by decide
      left
      rcases guard_cases ha with rfl | rfl
      · rw [guard_lockr]
        exact .inr hone
      · rw [guard_lockw]
        exact .inr hone
    | unlockw => exact .inr rfl

/-! ## The counters -/

/-- **The counters say who holds the lock and who waits to write**, and the holders are readers, or
one writer. -/
structure Inv (s : State ι) : Prop where
  reading : s.core.mem.rReading.toInt = s.holders.readers.length
  writing : s.core.mem.onWrite.toInt = s.holders.writers.length
  waiting : s.core.mem.wWaited.toInt = (s.core.entered .lockw).ncard
  finite : (s.core.entered .lockw).Finite
  single : s.holders.writers.length ≤ 1
  apart : s.holders.writers = [] ∨ s.holders.readers = []
  held : ∀ t a, s.core.phase t = .before a → s.holders.Held t a

omit [DecidableEq ι] in
theorem Inv.start : Inv (State.start : State ι) where
  reading := rfl
  writing := rfl
  waiting := by
    simp [State.start, CondVar.State.start, CondVar.State.entered, CondVar.Pc.Entered, init]
  finite := by simp [State.start, CondVar.State.start, CondVar.State.entered, CondVar.Pc.Entered]
  single := Nat.zero_le 1
  apart := .inl rfl
  held t a ht := by cases ht

theorem Holders.Held.pass {h : Holders ι} {t u : ι} {a b : Op} (hh : h.Held t b) (hne : t ≠ u) :
    (h.act (.pass u a)).Held t b := by
  cases a <;> cases b <;> simp_all [Holders.Held, Holders.act, List.mem_erase_of_ne]

omit [DecidableEq ι] in
theorem Holders.Held.mono {h h' : Holders ι} {t : ι} {a : Op} (hh : h.Held t a) (he : h' = h) :
    h'.Held t a := by
  rw [he]
  exact hh

theorem Holders.act_of_ne_pass (h : Holders ι) (hact : ∀ t a, act ≠ .pass t a) :
    h.act act = h := by
  cases act with
  | pass t a => exact absurd rfl (hact t a)
  | silent | call | interrupt | ret => rfl

/-- An unlock that has begun is by a holder. -/
theorem Inv.held_step (h : Inv s) (hs : Step s act s') (t : ι) (a : Op)
    (ht : s'.core.phase t = .before a) : s'.holders.Held t a := by
  obtain ⟨hp, -⟩ := CondVar.phase_step hs.core
  rw [hp] at ht
  rw [hs.holders]
  cases act with
  | silent => exact h.held t a ht
  | call u b =>
    by_cases htu : t = u
    · subst htu
      rw [Act.phase, Function.update_self] at ht
      rw [← Phase.before.inj ht]
      exact hs.may
    · rw [Act.phase, Function.update_of_ne htu] at ht
      exact h.held t a ht
  | pass u b | interrupt u b | ret u b =>
    by_cases htu : t = u
    · subst htu
      rw [Act.phase, Function.update_self] at ht
      cases ht
    · rw [Act.phase, Function.update_of_ne htu] at ht
      first
        | exact (h.held t a ht).pass htu
        | exact h.held t a ht

theorem Inv.same (h : Inv s) (hs : Step s act s') (hm : s'.core.mem = s.core.mem)
    (hw : s'.core.entered .lockw = s.core.entered .lockw) (hh : s'.holders = s.holders) :
    Inv s' where
  reading := by rw [hm, hh, h.reading]
  writing := by rw [hm, hh, h.writing]
  waiting := by rw [hm, hw, h.waiting]
  finite := by rw [hw]; exact h.finite
  single := by rw [hh]; exact h.single
  apart := by rw [hh]; exact h.apart
  held := h.held_step hs

theorem Inv.step (h : Inv s) (hc : Counted s act s') : Inv s' := by
  have hs := hc.step
  have hheld := h.held_step hs
  have hreading := h.reading
  have hwriting := h.writing
  have hwaiting := h.waiting
  obtain ⟨-, hfits⟩ := CondVar.phase_step hs.core
  have hh := hs.holders
  rcases CondVar.entered_step hs.core with ⟨hm, hact, he⟩ | ⟨t, a, rfl, hpc, hm, ht, he⟩ |
    ⟨t, a, rfl, hg, hm, ht, he⟩
  · rw [Holders.act_of_ne_pass _ hact] at hh
    exact h.same hs hm (congrFun he _) hh
  · cases a with
    | lockr | unlockr | unlockw =>
      exact h.same hs hm (by rw [he, Function.update_of_ne (by decide)]) hh
    | lockw =>
      rw [show s.holders.act .silent = s.holders from rfl] at hh
      have hw : s'.core.entered .lockw = insert t (s.core.entered .lockw) := by
        rw [he, Function.update_self]
      refine ⟨by rw [hm, hh]; exact hreading, by rw [hm, hh]; exact hwriting, ?_, ?_,
        by rw [hh]; exact h.single, by rw [hh]; exact h.apart, hheld⟩
      · rw [hm, hw, Set.ncard_insert_of_notMem ht h.finite]
        show (s.core.mem.wWaited + 1).toInt = _
        rw [toInt_add_one (hc.room.enter t .lockw hpc.1 hpc.2)]
        omega
      · rw [hw]
        exact h.finite.insert t
  · -- the guard was false, and whoever unlocks is a holder
    have hin := h.held t a hfits
    cases a with
    | lockr =>
      obtain ⟨-, ho⟩ := guard_lockr_false hg
      have hnil : s.holders.writers = [] := List.length_eq_zero_iff.1 (by omega)
      have hw : s'.core.entered .lockw = s.core.entered .lockw := by
        rw [he, Function.update_of_ne (by decide)]
      refine ⟨?_, by rw [hm, hh]; exact hwriting, by rw [hm, hw]; exact hwaiting,
        by rw [hw]; exact h.finite, by rw [hh]; exact h.single, by rw [hh]; exact .inl hnil, hheld⟩
      rw [hm, hh]
      show (s.core.mem.rReading + 1).toInt = ((t :: s.holders.readers).length : Int)
      rw [toInt_add_one (hc.room.leave t .lockr rfl), List.length_cons]
      omega
    | unlockr =>
      have hmem : t ∈ s.holders.readers := hin
      have hlen := List.length_erase_add_one hmem
      have hw : s'.core.entered .lockw = s.core.entered .lockw := by
        rw [he, Function.update_of_ne (by decide)]
      refine ⟨?_, by rw [hm, hh]; exact hwriting, by rw [hm, hw]; exact hwaiting,
        by rw [hw]; exact h.finite, by rw [hh]; exact h.single, ?_, hheld⟩
      · rw [hm, hh]
        show (s.core.mem.rReading - 1).toInt = ((s.holders.readers.erase t).length : Int)
        rw [toInt_sub_one (by omega)]
        omega
      · rw [hh]
        rcases h.apart with hnil | hnil
        · exact .inl hnil
        · rw [hnil] at hmem
          cases hmem
    | lockw =>
      obtain ⟨hr, ho⟩ := guard_lockw_false hg
      have hnil : s.holders.writers = [] := List.length_eq_zero_iff.1 (by omega)
      have hnil' : s.holders.readers = [] := List.length_eq_zero_iff.1 (by omega)
      have hw : s'.core.entered .lockw = s.core.entered .lockw \ {t} := by
        rw [he, Function.update_self]
      have hcard := Set.ncard_sdiff_singleton_add_one ht h.finite
      refine ⟨by rw [hm, hh]; exact hreading, ?_, ?_, ?_, ?_, by rw [hh]; exact .inr hnil', hheld⟩
      · rw [hm, hh]
        show (1 : Int32).toInt = ((t :: s.holders.writers).length : Int)
        rw [hnil]
        rfl
      · rw [hm, hw]
        show (s.core.mem.wWaited - 1).toInt = _
        rw [toInt_sub_one (by omega)]
        omega
      · rw [hw]
        exact h.finite.sdiff
      · rw [hh]
        show (t :: s.holders.writers).length ≤ 1
        rw [hnil]
        exact Nat.le_refl 1
    | unlockw =>
      have hmem : t ∈ s.holders.writers := hin
      have hlen := List.length_erase_add_one hmem
      have hsingle := h.single
      have hw : s'.core.entered .lockw = s.core.entered .lockw := by
        rw [he, Function.update_of_ne (by decide)]
      have hnil : s.holders.writers.erase t = [] := List.length_eq_zero_iff.1 (by omega)
      refine ⟨by rw [hm, hh]; exact hreading, ?_, by rw [hm, hw]; exact hwaiting,
        by rw [hw]; exact h.finite, ?_, by rw [hh]; exact .inl hnil, hheld⟩
      · rw [hm, hh]
        show (0 : Int32).toInt = ((s.holders.writers.erase t).length : Int)
        rw [hnil]
        rfl
      · rw [hh]
        show (s.holders.writers.erase t).length ≤ 1
        omega

/-! ## Every run -/

theorem CountedReached.reached (h : CountedReached s) : Reached s :=
  h.mono fun _ _ ⟨act, hs⟩ => ⟨act, hs.step⟩

theorem CountedReached.inv (h : CountedReached s) : Inv s := by
  apply Reachable.invariant ?_ ?_ h
  · intro s hs
    rw [hs]
    exact .start
  · intro s s' hi ⟨act, hs⟩
    exact hi.step hs

theorem Reached.owned (h : Reached s) : CondVar.Owned s.core := by
  apply Reachable.invariant (J := fun s : State ι => CondVar.Owned s.core) ?_ ?_ h
  · intro s hs t ht
    rw [hs] at ht
    exact ht.elim
  · intro s s' hi ⟨act, hs⟩
    exact CondVar.owned_step hi hs.core

theorem CountedReached.awaited (h : CountedReached s) : CondVar.Awaited rwlock s.core := by
  apply Reachable.invariant (J := fun s : State ι => CondVar.Awaited rwlock s.core) ?_ ?_ h
  · intro s hs t a ht
    rw [hs] at ht
    cases ht
  · intro s s' hi ⟨act, hs⟩
    exact CondVar.awaited_step broadcasts hi hs.step.core hs.room

/-- **What the lock keeps while its mutex is free.** -/
structure Exclusive (s : State ι) : Prop where
  reading : s.core.mem.rReading.toInt = s.holders.readers.length
  writing : s.core.mem.onWrite = if s.holders.writers.length = 1 then 1 else 0
  /-- `w_waited` counts the writers that have not been let in. -/
  waiting : (s.core.entered .lockw).Finite ∧
    s.core.mem.wWaited.toInt = (s.core.entered .lockw).ncard
  apart : s.holders.writers = [] ∨ s.holders.readers = [] ∧ ∃ t, s.holders.writers = [t]
  /-- Whoever waits, and has not been notified, waits for a guard that is true. -/
  awaited : ∀ t a, s.core.pc t = .blocked a → rwlock.guard a s.core.mem = true

/-- **The reader/writer lock is exclusive, prefers writers and loses no wakeup.** As long as the
counters have room, and while the mutex is free, the counters say how many readers hold the lock,
whether a writer does and how many writers wait to be let in; the holders are readers, or one
writer; and whoever waits, and has not been notified, waits for a guard that is true. A reader is
let in only while no writer waits. -/
theorem exclusive (h : CountedReached s) :
    (s.core.mtx = none → Exclusive s) ∧
    ∀ t s', Step s (.pass t .lockr) s' → ¬ 0 < s.core.mem.wWaited ∧ s.core.entered .lockw = ∅ := by
  have hi := h.inv
  have hwriting := hi.writing
  have hsingle := hi.single
  refine ⟨fun hm => ⟨hi.reading, ?_, ⟨hi.finite, hi.waiting⟩, ?_, ?_⟩, ?_⟩
  · rw [← Int32.toInt_inj, hwriting]
    split
    · next hone => rw [hone]; rfl
    · rw [show s.holders.writers.length = 0 by omega]
      rfl
  · rcases hi.apart with hnil | hnil
    · exact .inl hnil
    · cases hw : s.holders.writers with
      | nil => exact .inl rfl
      | cons t ts =>
        rw [hw, List.length_cons] at hsingle
        have hts : ts = [] := List.length_eq_zero_iff.1 (by omega)
        exact .inr ⟨hnil, t, by rw [hts]⟩
  · intro t a ht
    rcases h.awaited t a ht with hg | ⟨u, b, hu⟩
    · exact hg
    · -- whoever is about to broadcast holds the mutex
      have hin := h.reached.owned u (by rw [hu]; exact trivial)
      rw [hm] at hin
      cases hin
  · intro t s' hs
    obtain ⟨hle, -⟩ := guard_lockr_false (CondVar.pass_step hs.core).1
    have hw := hi.waiting
    rw [pos_iff]
    refine ⟨by omega, ?_⟩
    rw [← Set.ncard_eq_zero hi.finite]
    omega

theorem Step.of {c : CondVar.State ι Rwlock Op} (hc : CondVar.Step rwlock s.core act c)
    (hm : s.holders.May act) : Step s act ⟨c, s.holders.act act⟩ := ⟨hc, hm, rfl⟩

theorem Counted.of {c : CondVar.State ι Rwlock Op} (hc : CondVar.Step rwlock s.core act c)
    (hm : s.holders.May act) (hw : s.core.mem.wWaited < Int32.maxValue)
    (hr : s.core.mem.rReading < Int32.maxValue) : Counted s act ⟨c, s.holders.act act⟩ :=
  ⟨.of hc hm, allowed_of_lt hw hr⟩

/-- A writer waits for a reader. -/
theorem exclusive_run : ∃ s : State Bool, CountedReached s ∧ s.holders.readers = [false] ∧
    s.core.pc true = .blocked .lockw ∧ rwlock.guard .lockw s.core.mem = true := by
  have h1 := Reachable.next (Reachable.start rfl : CountedReached (State.start : State Bool))
    ⟨_, .of (.call (t := false) .lockr rfl) (by exact trivial) (by decide) (by decide)⟩
  have h2 := h1.next
    ⟨_, .of (.acquire (t := false) rfl rfl) (by exact trivial) (by decide) (by decide)⟩
  have h3 := h2.next
    ⟨_, .of (.pass (t := false) rfl rfl) (by exact trivial) (by decide) (by decide)⟩
  have h4 := h3.next
    ⟨_, .of (.notifyNone (t := false) rfl) (by exact trivial) (by decide) (by decide)⟩
  have h5 := h4.next
    ⟨_, .of (.unlock (t := false) rfl) (by exact trivial) (by decide) (by decide)⟩
  have h6 := h5.next
    ⟨_, .of (.call (t := true) .lockw rfl) (by exact trivial) (by decide) (by decide)⟩
  have h7 := h6.next
    ⟨_, .of (.acquire (t := true) rfl rfl) (by exact trivial) (by decide) (by decide)⟩
  have h8 := h7.next
    ⟨_, .of (.block (t := true) rfl rfl) (by exact trivial) (by decide) (by decide)⟩
  exact ⟨_, h8, rfl, rfl, ((exclusive h8).1 rfl).awaited true .lockw rfl⟩

/-! ## Without room -/

/-- One thread takes the lock for reading `n` times. -/
theorem reached_readers (n : Nat) : ∃ s : State Bool, Reached s ∧
    s.core.mem = ⟨0, Int32.ofNat n, 0⟩ ∧ s.core.mtx = none ∧ s.core.pc = (fun _ => .out) ∧
    s.holders = ⟨List.replicate n false, []⟩ := by
  induction n with
  | zero => exact ⟨_, .start rfl, rfl, rfl, rfl, rfl⟩
  | succ n ih =>
    obtain ⟨⟨⟨mem, mtx, pc, c⟩, holders⟩, h, hmem, hmtx, hpc, hh⟩ := ih
    dsimp only at hmem hmtx hpc hh
    subst hmem hmtx hpc hh
    have h1 := h.next ⟨_, Step.of (.call (t := false) .lockr rfl) (by exact trivial)⟩
    have h2 := h1.next ⟨_, Step.of (.acquire (t := false) rfl rfl) (by exact trivial)⟩
    have h3 := h2.next ⟨_, Step.of (.pass (t := false) rfl rfl) (by exact trivial)⟩
    have h4 := h3.next ⟨_, Step.of (.notifyNone (t := false) rfl) (by exact trivial)⟩
    have h5 := h4.next ⟨_, Step.of (.unlock (t := false) rfl) (by exact trivial)⟩
    have h6 := h5.next ⟨_, Step.of (.ret (t := false) rfl) (by exact trivial)⟩
    refine ⟨_, h6, ?_, rfl, ?_, rfl⟩
    · show (⟨0, Int32.ofNat n + 1, 0⟩ : Rwlock) = _
      rw [Int32.ofNat_add]
      rfl
    · funext b
      cases b <;> rfl

/-- **The counters wrap around**: where one thread holds the lock for reading 2147483648 times,
`r_reading` is negative, and a writer is let in beside it. -/
theorem exclusive_overflows : ∃ s : State Bool, Reached s ∧ s.core.mtx = none ∧
    s.holders.readers.length = 2147483648 ∧ s.holders.writers = [true] ∧ ¬ Exclusive s := by
  obtain ⟨⟨⟨mem, mtx, pc, c⟩, holders⟩, h, hmem, hmtx, hpc, hh⟩ := reached_readers 2147483648
  dsimp only at hmem hmtx hpc hh
  subst hmtx hpc
  have hguard : rwlock.guard .lockw { mem with wWaited := mem.wWaited + 1 } = false := by
    rw [hmem]
    decide
  have h1 := h.next ⟨_, Step.of (.call (t := true) .lockw rfl) (by exact trivial)⟩
  have h2 := h1.next ⟨_, Step.of (.acquire (t := true) rfl rfl) (by exact trivial)⟩
  have h3 := h2.next ⟨_, Step.of (.pass (t := true) rfl hguard) (by exact trivial)⟩
  have h4 := h3.next ⟨_, Step.of (.notifyNone (t := true) rfl) (by exact trivial)⟩
  have h5 := h4.next ⟨_, Step.of (.unlock (t := true) rfl) (by exact trivial)⟩
  have hlen : holders.readers.length = 2147483648 := by
    rw [hh, List.length_replicate]
  have hw : holders.writers = [] := by rw [hh]
  have hwriters : true :: holders.writers = [true] := by rw [hw]
  refine ⟨_, h5, rfl, hlen, hwriters, fun hx => ?_⟩
  have hreading : mem.rReading.toInt = holders.readers.length := hx.reading
  have hlt := mem.rReading.toInt_lt
  omega

end Rwlock

end Sync
