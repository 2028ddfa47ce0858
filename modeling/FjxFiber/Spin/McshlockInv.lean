import FjxFiber.Lib.NodeQueue
import FjxFiber.Spin.Mcshlock

/-!
# The invariant of `fjx_mcshlock`

The calls that wait, and the one at the head that looks for its successor, are a queue over `tail`.
One thread at most is past its wait (`Active`); what it knows, and what the others may rely on
meanwhile, is said for each program counter by `At`. What the other threads know is kept by a step
of one thread where `Kept` says so.
-/

set_option autoImplicit false

namespace Spin.Mcshlock

open Lib Lib.StackNodes

variable {ι A : Type*}

/-! ## The queue -/

/-- The call is in the queue: it has exchanged, and does not know its successor yet. -/
def Pc.queued : Pc ι A → Option (Ref ι A)
  | awaitLock mm | setMsg mm | link mm _ | awaitMsg mm | loadTail mm | compareExchange mm
  | awaitTail mm => some mm
  | _ => none

/-- The call has left the queue, and is about to return. -/
def Pc.leaving : Pc ι A → Option (Ref ι A)
  | storeMsg mm _ => some mm
  | _ => none

def Pc.links : Pc ι A → Option (Ptr ι A)
  | link _ prev => some prev
  | _ => none

/-- The queue in `tail`. -/
def layout : Layout ι A (Mcshlock ι A) (Pc ι A) where
  tail := Mcshlock.tail
  link := Mcshlock.tail
  unset := .lock
  queued := Pc.queued
  links := Pc.links
  ref_ne_unset _ h := by cases h

/-! ## What is known at each access -/

/-- Past its wait, up to the store of `fjx_mcshlock_unlock`. -/
def Active (s : State ι A) : Pc ι A → Prop
  | .setMsg _ | .loadTail _ | .compareExchange _ | .awaitTail _ | .storeMsg _ _ | .held
  | .clearMsg _ => True
  | .awaitMsg mm => (s.mem mm.addr).msg = .null
  | _ => False

/-- Where the lock goes next: to nobody in particular, or to the head of the queue, which waits in
its node. -/
def Succ (s : State ι A) (q : List (Ref ι A)) (succ : Ptr ι A) : Prop :=
  succ = .lock ∨ ∃ y, succ = .node y ∧ q.head? = some y ∧ s.pc y.thread = .awaitMsg y ∧
    (s.mem y.addr).msg ≠ .null

def At (s : State ι A) (q : List (Ref ι A)) : Pc ι A → Prop
  | .out | .initTail _ => True
  | .initMsg mm => (s.mem mm.addr).tail = .lock
  | .exchange mm => (s.mem mm.addr).tail = .lock ∧ (s.mem mm.addr).msg = .lock
  | .awaitLock mm | .setMsg mm => q.head? = some mm
  | .link mm prev => (s.mem mm.addr).msg = .lock ∧ ∃ x, prev = .node x
  | .awaitMsg mm =>
      (s.mem mm.addr).msg = .null → q.head? = some mm ∧ s.lock.msg ≠ .null
  | .loadTail mm | .compareExchange mm | .awaitTail mm =>
      q.head? = some mm ∧ s.lock.msg ≠ .null
  | .storeMsg _ succ | .clearMsg succ => Succ s q succ ∧ s.lock.msg ≠ .null
  | .held => Succ s q s.lock.msg

section
variable {s : State ι A} {q : List (Ref ι A)} {p : Pc ι A} {mm : Ref ι A}

theorem node_of_queued (hq : p.queued = some mm) : p.node = some mm := by
  cases p <;> first | exact hq | cases hq

theorem active_of_leaving (hp : p.leaving = some mm) : Active s p := by
  cases p <;> first | exact trivial | cases hp

theorem active_of_holds (hp : p.Holds) : Active s p := by
  cases p <;> first | exact trivial | exact hp.elim

theorem Succ.ne_null {succ : Ptr ι A} (h : Succ s q succ) : succ ≠ .null := by
  rcases h with rfl | ⟨y, rfl, -⟩ <;> simp

end

variable [DecidableEq ι] [DecidableEq A]

/-- **The invariant**: `q` is the queue, and `w` the call that has left it and not returned. -/
structure Inv (s : State ι A) (q : List (Ref ι A)) (w : Option (Ref ι A)) : Prop where
  queue : Queued mcshlock layout s q
  leaving : ∀ r, w = some r ↔ (s.pc r.thread).leaving = some r
  fifo : s.exchanged = s.entered ++ (w.toList ++ q)
  one : ∀ t u, Active s (s.pc t) → Active s (s.pc u) → t = u
  known : ∀ t, At s q (s.pc t)

variable {s s' : State ι A} {q q' : List (Ref ι A)} {w w' : Option (Ref ι A)} {t : ι} {p : Pc ι A}
  {mm : Ref ι A}

theorem Inv.start (mem : A → Mcshlock ι A) : Inv (mcshlock.start init mem) [] none where
  queue := .start lawful (fun _ _ => node_of_queued) mem rfl
  leaving r := by simp [Program.start, mcshlock, Pc.leaving]
  fifo := rfl
  one t u ht := ht.elim
  known t := trivial

/-! ## What a step leaves alone -/

/-- What another thread's access may change of what a thread at `p` knows. -/
structure Kept (s s' : State ι A) (q q' : List (Ref ι A)) (p : Pc ι A) : Prop where
  msg : ∀ r, p.node = some r → (s'.mem r.addr).msg = (s.mem r.addr).msg
  fresh : ∀ r, p = .initMsg r ∨ p = .exchange r → s'.mem r.addr = s.mem r.addr
  head : ∀ r, p.queued = some r → q.head? = some r → q'.head? = some r
  active : Active s p → s'.lock.msg = s.lock.msg ∧ ∀ v, Succ s q v → Succ s' q' v

omit [DecidableEq ι] [DecidableEq A] in
/-- An access that leaves the nodes alone. -/
theorem Kept.of_mem (hmem : s'.mem = s.mem)
    (hhead : ∀ r, p.queued = some r → q.head? = some r → q'.head? = some r)
    (hactive : Active s p → s'.lock.msg = s.lock.msg ∧ ∀ v, Succ s q v → Succ s' q' v) :
    Kept s s' q q' p := by
  refine ⟨fun r _ => ?_, fun r _ => ?_, hhead, hactive⟩ <;> rw [hmem]

omit [DecidableEq ι] [DecidableEq A] in
theorem Kept.active_iff (h : Kept s s' q q' p) : Active s' p ↔ Active s p := by
  cases p with
  | awaitMsg mm =>
    show (s'.mem mm.addr).msg = .null ↔ (s.mem mm.addr).msg = .null
    rw [h.msg mm rfl]
  | _ => exact Iff.rfl

omit [DecidableEq ι] [DecidableEq A] in
theorem Kept.at (h : Kept s s' q q' p) (ha : At s q p) : At s' q' p := by
  cases p with
  | out | initTail mm => trivial
  | initMsg mm =>
    show (s'.mem mm.addr).tail = .lock
    rw [h.fresh mm (.inl rfl)]
    exact ha
  | exchange mm =>
    show (s'.mem mm.addr).tail = .lock ∧ (s'.mem mm.addr).msg = .lock
    rw [h.fresh mm (.inr rfl)]
    exact ha
  | awaitLock mm | setMsg mm => exact h.head mm rfl ha
  | link mm prev => exact ⟨(h.msg mm rfl).trans ha.1, ha.2⟩
  | awaitMsg mm =>
    intro hm
    rw [h.msg mm rfl] at hm
    obtain ⟨hq, hl⟩ := ha hm
    rw [(h.active hm).1]
    exact ⟨h.head mm rfl hq, hl⟩
  | loadTail mm | compareExchange mm | awaitTail mm =>
    obtain ⟨hq, hl⟩ := ha
    obtain ⟨hlock, -⟩ := h.active trivial
    exact ⟨h.head mm rfl hq, by rw [hlock]; exact hl⟩
  | storeMsg mm succ | clearMsg succ =>
    obtain ⟨hs, hl⟩ := ha
    obtain ⟨hlock, hsucc⟩ := h.active trivial
    exact ⟨hsucc _ hs, by rw [hlock]; exact hl⟩
  | held =>
    obtain ⟨hlock, hsucc⟩ := h.active trivial
    show Succ s' q' s'.lock.msg
    rw [hlock]
    exact hsucc _ ha

omit [DecidableEq A] in
theorem Succ.keep {v : Ptr ι A} (h : Succ s q v) (hpc : s'.pc = Function.update s.pc t p)
    (hq : ∀ r, q.head? = some r → q'.head? = some r)
    (hmsg : ∀ r, s.pc r.thread = .awaitMsg r → (s'.mem r.addr).msg = (s.mem r.addr).msg)
    (ht : ∀ y, s.pc t = .awaitMsg y → p = .awaitMsg y) : Succ s' q' v := by
  rcases h with hv | ⟨y, hv, hy, hyp, hym⟩
  · exact .inl hv
  · refine .inr ⟨y, hv, hq y hy, ?_, ?_⟩
    · rw [hpc]
      by_cases hyt : y.thread = t
      · rw [hyt, Function.update_self]
        exact ht y (by rw [← hyt]; exact hyp)
      · rw [Function.update_of_ne hyt]
        exact hyp
    · rw [hmsg y hyp]
      exact hym

/-- A thread goes on from where it is to `p`. -/
theorem Inv.goto (h : Inv s q w) (hpc : s'.pc = Function.update s.pc t p)
    (hqueue : Queued mcshlock layout s' q')
    (hw : ∀ r, w' = some r ↔ (s'.pc r.thread).leaving = some r)
    (hfifo : s'.exchanged = s'.entered ++ (w'.toList ++ q')) (hat : At s' q' p)
    (hkept : ∀ u, u ≠ t → Kept s s' q q' (s.pc u))
    (hactive : Active s' p → Active s (s.pc t) ∨ ∀ u, u ≠ t → ¬ Active s (s.pc u)) :
    Inv s' q' w' where
  queue := hqueue
  leaving := hw
  fifo := hfifo
  one := unique_goto h.one hpc (fun u hu => (hkept u hu).active_iff.1) hactive
  known := known_goto h.known hpc hat fun u hu => (hkept u hu).at

/-- An access that leaves the nodes and the queue as they are; only an active thread changes
`lock->msg`. -/
theorem Inv.stay (h : Inv s q w) (hs : mcshlock.Step s s') (hpc : s'.pc = Function.update s.pc t p)
    (hmem : s'.mem = s.mem) (htail : s'.lock.tail = s.lock.tail)
    (hlog : s'.exchanged = s.exchanged ∧ s'.entered = s.entered)
    (hp : p.queued = (s.pc t).queued ∧ p.links = (s.pc t).links ∧ p.leaving = (s.pc t).leaving)
    (hwait : Active s (s.pc t) ∨
      s'.lock.msg = s.lock.msg ∧ ∀ y, s.pc t = .awaitMsg y → p = .awaitMsg y)
    (hat : At s' q p)
    (hactive : Active s' p → Active s (s.pc t) ∨ ∀ u, u ≠ t → ¬ Active s (s.pc u)) :
    Inv s' q w := by
  refine h.goto hpc ?_ ?_ ?_ hat ?_ hactive
  · refine h.queue.stay (h.queue.live.step lawful hs) hpc htail (fun x _ => ?_) hp.1 hp.2.1
    unfold Layout.next
    rw [hmem]
  · intro r
    rw [same_goto hpc hp.2.2]
    exact h.leaving r
  · rw [hlog.1, hlog.2]
    exact h.fifo
  · intro u hu
    refine .of_mem hmem (fun r _ hr => hr) fun hua => ?_
    rcases hwait with ha | ⟨hmsg, hy⟩
    · exact absurd (h.one u t hua ha) hu
    · exact ⟨hmsg, fun v hv => hv.keep hpc (fun r hr => hr) (fun r _ => by rw [hmem]) hy⟩

end Spin.Mcshlock
