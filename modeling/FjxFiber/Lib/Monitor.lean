import Mathlib.Logic.Function.Basic
import FjxFiber.Lib.Reach
import FjxFiber.Lib.Placement

/-!
# Objects guarded by a lock, with handoff and a destroying operation

A `Spec F Op O` gives the critical sections of an object of type `O` called by threads of control
`F`: `sec op f o` is what `f` does to `o` while it holds the object's lock, and the `Outcome` says
how the call goes on: it returns; it blocks, already linked as a waiter, and the lock is released
for it by somebody else once it has been suspended; it resumes one waiter that it took from the
object; or it frees the object and resumes a list of waiters.

`Step` interleaves the pieces of any number of such calls. Acquiring the lock and the section
are separate steps, and so are the deferred release, the resumption of a waiter and the free.
A caller may start an operation only as `Spec.may` allows, and nobody takes the lock after a
destroying operation has taken it (`closing`).

`Spec.Lawful` is what the proofs (`MonitorProof.lean`) need of a specification: a section accounts
for its waiters, and exactly the destroying operations free the object.
-/

set_option autoImplicit false

namespace Lib.Monitor

variable {F Op O : Type*}

/-- How a call goes on after its critical section. -/
inductive Outcome (F : Type*)
  | ret
  | block
  | wake (g : F)
  | drain (gs : List F)

/-- The waiters that a section takes from the object. -/
def Outcome.taken : Outcome F → List F
  | wake g => [g]
  | drain gs => gs
  | _ => []

/-- The critical sections of an object. -/
structure Spec (F Op O : Type*) where
  sec : Op → F → O → O × Outcome F
  /-- The callers linked in the object as waiters. -/
  waiters : O → List F
  /-- What a caller may start; the discipline the object's users promise. -/
  may : O → F → Op → Prop
  /-- The operations that destroy the object. -/
  closes : Op → Bool

/-- Where a caller stands in its current call. -/
inductive Pc (F Op : Type*)
  | idle
  /-- About to take the lock. -/
  | want (op : Op)
  /-- Holding the lock, about to run the section. -/
  | inside (op : Op)
  /-- Linked and suspending itself; the lock will be released on another stack. -/
  | publishing (op : Op)
  | waiting (op : Op)
  /-- The lock is released; about to resume `g`. -/
  | handing (g : F)
  /-- The lock is released; about to free the object. -/
  | freeing (gs : List F)
  /-- The object is freed; about to resume these waiters. -/
  | waking (gs : List F)
  /-- Resumed, about to return from its blocking call. -/
  | runnable

namespace Pc

/-- The caller is suspended in the object, or is suspending itself. -/
def blocked : Pc F Op → Bool
  | publishing _ | waiting _ => true
  | _ => false

/-- The caller holds the lock (or the lock is held on its behalf). -/
def locked : Pc F Op → Bool
  | inside _ | publishing _ => true
  | _ => false

/-- The next step of the caller accesses the object. -/
def touches : Pc F Op → Bool
  | inside _ | publishing _ | freeing _ => true
  | _ => false

/-- The waiters in the hands of the caller. -/
def held : Pc F Op → List F
  | handing g => [g]
  | freeing gs | waking gs => gs
  | _ => []

end Pc

structure State (F Op O : Type*) where
  obj : O
  lock : Option F
  pc : F → Pc F Op
  /-- A destroying operation has taken the lock. -/
  closing : Bool
  freed : Bool
  /-- Ghost: the acquisitions of the lock so far, and the sections run so far. -/
  order : List (F × Op)
  secs : List (F × Op)
  /-- Ghost: the callers that blocked, those that sections took from the object, and those that
  were resumed, in order. -/
  blockLog : List F
  takenLog : List F
  wakeLog : List F

/-- The object before the first call. -/
def State.start (o : O) : State F Op O :=
  { obj := o, lock := none, pc := fun _ => .idle, closing := false, freed := false,
    order := [], secs := [], blockLog := [],
    takenLog := [], wakeLog := [] }

variable [DecidableEq F]

/-- `s` with the caller `f` at `p`. -/
def State.at (s : State F Op O) (f : F) (p : Pc F Op) : State F Op O :=
  { s with pc := Function.update s.pc f p }

/-- The state after `f`'s section returned `r`. -/
def State.after (s : State F Op O) (f : F) (op : Op) (r : O × Outcome F) : State F Op O :=
  let secs := s.secs ++ [(f, op)]
  match r.2 with
  | .ret => { s.at f .idle with obj := r.1, secs, lock := none }
  | .block => { s.at f (.publishing op) with obj := r.1, secs, blockLog := s.blockLog ++ [f] }
  | .wake g => { s.at f (.handing g) with
      obj := r.1, secs, lock := none, takenLog := s.takenLog ++ [g] }
  | .drain gs => { s.at f (.freeing gs) with
      obj := r.1, secs, lock := none, takenLog := s.takenLog ++ gs }

inductive Step (M : Spec F Op O) : State F Op O → State F Op O → Prop
  | call {s : State F Op O} (f : F) (op : Op) (hpc : s.pc f = .idle) (hopen : s.closing = false)
      (hmay : M.may s.obj f op) : Step M s (s.at f (.want op))
  | acquire {s : State F Op O} (f : F) (op : Op) (hpc : s.pc f = .want op) (hlock : s.lock = none)
      (hopen : s.closing = false) :
      Step M s { s.at f (.inside op) with
        lock := some f, order := s.order ++ [(f, op)], closing := M.closes op }
  | critical {s : State F Op O} (f : F) (op : Op) (hpc : s.pc f = .inside op) :
      Step M s (s.after f op (M.sec op f s.obj))
  | publish {s : State F Op O} (f : F) (op : Op) (hpc : s.pc f = .publishing op) :
      Step M s { s.at f (.waiting op) with lock := none }
  | hand {s : State F Op O} {f g : F} (hpc : s.pc f = .handing g) :
      Step M s { (s.at g .runnable).at f .idle with wakeLog := s.wakeLog ++ [g] }
  | free {s : State F Op O} {f : F} {gs : List F} (hpc : s.pc f = .freeing gs) :
      Step M s { s.at f (.waking gs) with freed := true }
  | wake {s : State F Op O} {f g : F} {gs : List F} (hpc : s.pc f = .waking (g :: gs)) :
      Step M s { (s.at g .runnable).at f (.waking gs) with wakeLog := s.wakeLog ++ [g] }
  | woken {s : State F Op O} {f : F} (hpc : s.pc f = .waking []) : Step M s (s.at f .idle)
  | resume {s : State F Op O} {f : F} (hpc : s.pc f = .runnable) : Step M s (s.at f .idle)

/-- A section accounts for the waiters, and exactly the destroying operations drain. -/
structure Spec.Lawful (M : Spec F Op O) : Prop where
  ret : ∀ op f o, (M.sec op f o).2 = .ret → M.waiters (M.sec op f o).1 = M.waiters o
  block : ∀ op f o, (M.sec op f o).2 = .block →
    M.waiters (M.sec op f o).1 = M.waiters o ++ [f] ∧ M.closes op = false
  wake : ∀ op f o g, (M.sec op f o).2 = .wake g →
    M.waiters o = g :: M.waiters (M.sec op f o).1
  drain : ∀ op f o gs, (M.sec op f o).2 = .drain gs →
    M.waiters o = gs ++ M.waiters (M.sec op f o).1
  closes : ∀ op f o, M.closes op = true ↔ ∃ gs, (M.sec op f o).2 = .drain gs

/-- The callers of `op` among these sections or acquisitions, in order. -/
def callers [DecidableEq Op] (op : Op) (l : List (F × Op)) : List F :=
  l.filterMap fun x => if x.2 = op then some x.1 else none

omit [DecidableEq F] in
@[simp] theorem callers_snoc [DecidableEq Op] (op : Op) (l : List (F × Op)) (f : F) (op' : Op) :
    callers op (l ++ [(f, op')]) = callers op l ++ if op' = op then [f] else [] := by
  by_cases h : op' = op <;> simp [callers, h]

/-- No section has destroyed the object. -/
def Spec.Live (M : Spec F Op O) (l : List (F × Op)) : Prop := ∀ x ∈ l, M.closes x.2 = false

omit [DecidableEq F] in
theorem Spec.live_snoc {M : Spec F Op O} {l : List (F × Op)} {f : F} {op : Op} (hl : M.Live l) :
    M.Live (l ++ [(f, op)]) ↔ M.closes op = false := by
  constructor
  · exact fun h => h (f, op) (by simp)
  · intro h x hx
    rcases List.mem_append.1 hx with hx | hx
    · exact hl x hx
    · simp only [List.mem_singleton] at hx
      rw [hx]
      exact h

/-- States reached from the object `o`. -/
abbrev Reach (M : Spec F Op O) (o : O) : State F Op O → Prop :=
  Reachable (fun s => s = State.start o) (Step M)

section
variable (s : State F Op O) (f g : F) (p : Pc F Op)

@[simp] theorem at_obj : (s.at f p).obj = s.obj := rfl
@[simp] theorem at_lock : (s.at f p).lock = s.lock := rfl
@[simp] theorem at_closing : (s.at f p).closing = s.closing := rfl
@[simp] theorem at_freed : (s.at f p).freed = s.freed := rfl
@[simp] theorem at_order : (s.at f p).order = s.order := rfl
@[simp] theorem at_secs : (s.at f p).secs = s.secs := rfl
@[simp] theorem at_blockLog : (s.at f p).blockLog = s.blockLog := rfl
@[simp] theorem at_takenLog : (s.at f p).takenLog = s.takenLog := rfl
@[simp] theorem at_wakeLog : (s.at f p).wakeLog = s.wakeLog := rfl
@[simp] theorem at_pc_self : (s.at f p).pc f = p := by simp [State.at]
theorem at_pc : (s.at f p).pc g = if g = f then p else s.pc g := by
  simp [State.at, Function.update_apply]

end

end Lib.Monitor
