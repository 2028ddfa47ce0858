import FjxFiber.Sched.Reached

/-!
# Where the fibers are

`State.at` lists the places a fiber can be in: executed by a thread, in the hands of the operation
in progress on a thread, or linked. `fiber_conservation`: in every reachable state every fiber that
was spawned, and whose stack was not handed out again, is in exactly one place, once.
-/

set_option autoImplicit false

namespace Sched

open Lib

variable {s s' : State} {t t' : Thr} {c : Ctx} {F : List Frame} {f g : Fid} {w : Wid}

/-! ## Places -/

inductive Spot
  | executing (t : Thr)
  /-- Held by the operation in progress on `t`. -/
  | inHands (t : Thr)
  /-- In a list, or stored for an idle thread. -/
  | linked (p : Home)
  deriving DecidableEq

def State.at (s : State) : Spot → List Fid
  | .executing t => match s.thr t with
    | some r => execOf r.ctx r.frames
    | none => []
  | .inHands t => match s.thr t with
    | some r => r.frames.flatMap Frame.held
    | none => []
  | .linked p => s.linked p

/-- What a thread executes and what it has in hand are one place of the invariant. -/
def Spot.whole : Spot → Thr ⊕ Home
  | executing t | inHands t => .inl t
  | linked p => .inr p

theorem place_thr_eq (s : State) (t : Thr) :
    s.place (.inl t) = s.at (.executing t) ++ s.at (.inHands t) := by
  simp only [State.place, State.at]
  cases s.thr t <;> rfl

theorem mem_place {p : Spot} (h : f ∈ s.at p) : f ∈ s.place p.whole := by
  cases p with
  | executing t =>
    rw [Spot.whole, place_thr_eq]
    exact List.mem_append_left _ h
  | inHands t =>
    rw [Spot.whole, place_thr_eq]
    exact List.mem_append_right _ h
  | linked p => exact h

/-- The places of the invariant, with those of each thread told apart. -/
theorem Inv.at (h : Inv s) : Placed s.at s.Live := by
  refine fun f => ⟨fun hl => ?_, fun hl p hp => (h.fibers f).2 hl _ (mem_place hp)⟩
  obtain ⟨p, hp, ho⟩ := (h.fibers f).1 hl
  have hno : ∀ {q}, q.whole ≠ p → f ∉ s.at q := fun hq hm => ho _ hq (mem_place hm)
  rcases p with t | p
  · rw [place_thr_eq, List.count_append] at hp
    by_cases he : f ∈ s.at (.executing t)
    · have h1 := List.count_pos_iff.2 he
      refine ⟨.executing t, by omega, fun q hq hm => ?_⟩
      have hw : q.whole = .inl t := not_not.1 fun hn => hno hn hm
      cases q with
      | executing t' =>
        cases hw
        exact hq rfl
      | inHands t' =>
        cases hw
        have := List.count_pos_iff.2 hm
        omega
      | linked p => cases hw
    · rw [List.count_eq_zero_of_not_mem he, Nat.zero_add] at hp
      refine ⟨.inHands t, hp, fun q hq hm => ?_⟩
      have hw : q.whole = .inl t := not_not.1 fun hn => hno hn hm
      cases q with
      | executing t' =>
        cases hw
        exact he hm
      | inHands t' =>
        cases hw
        exact hq rfl
      | linked p => cases hw
  · refine ⟨.linked p, hp, fun q hq => hno ?_⟩
    rintro hw
    cases q with
    | executing t | inHands t => cases hw
    | linked q =>
      cases hw
      exact hq rfl

/-- No step undoes a spawn. -/
theorem Step.spawned (hs : Step s s') (hf : s.spawned f = true) : s'.spawned f = true := by
  cases hs with
  | @spawnNew t c rest g ht hg =>
    by_cases he : f = g
    · rw [he]
      exact Function.update_self _ _ _
    · exact (Function.update_of_ne he _ _).trans hf
  | _ => exact hf

theorem Reached.spawned_main (h : Reached s) : s.spawned 0 = true :=
  h.invariant (J := fun s => s.spawned 0 = true) (fun _ ⟨_, _, hs⟩ => hs ▸ rfl)
    fun _ _ hf hs => hs.spawned hf

/-! ## The result -/

/-- **Conservation of fibers.** In every reachable state every fiber that was spawned, the main
fiber among them, is in exactly one place, once, until its stack is handed out again. The fiber that
a thread executes is in that place, unless it is suspending itself: it is then linked in an object
whose lock the thread holds until the fiber is suspended. -/
theorem fiber_conservation (h : Reached s) :
    (∀ f, s.spawned f = true → s.recycled f = false →
      ∃ p, (s.at p).count f = 1 ∧ ∀ q, q ≠ p → f ∉ s.at q) ∧
    (∀ f, s.spawned f = false ∨ s.recycled f = true → ∀ p, f ∉ s.at p) ∧
    (s.spawned 0 = true ∧ s.recycled 0 = false) ∧
    (∀ t t' f F F', s.thr t = some ⟨.fiber f, F⟩ → s.thr t' = some ⟨.fiber f, F'⟩ → t = t') ∧
    ∀ t f F, s.thr t = some ⟨.fiber f, F⟩ → f ∈ s.at (.executing t) ∨
      ∃ o, f ∈ s.at (.linked (.wait o)) ∧ s.lock (.object o) = some t := by
  have hi := h.inv
  refine ⟨fun f hsp hr => (hi.at f).1 ⟨hsp, hr⟩, fun f hn => (hi.at f).2 ?_,
    ⟨h.spawned_main, h.stays.recycled⟩, fun t t' f F F' => hi.contexts.sole t t' _ F F',
    fun t f F ht => ?_⟩
  · rintro ⟨hsp, hr⟩
    rcases hn with hn | hn
    · rw [hsp] at hn
      cases hn
    · rw [hr] at hn
      cases hn
  · rcases hi.place_of_runs ht with ⟨he, -⟩ | hw
    · refine .inl ?_
      simp [State.at, ht, he]
    · exact .inr hw

/-- The main fiber spawns a fiber, and a second thread executes it. -/
theorem fiber_conservation_run : ∃ s, Reached s ∧ s.thr (.work 0) = some ⟨.fiber 0, [.user]⟩ ∧
    s.thr (.work 1) = some ⟨.fiber 1, [.user]⟩ ∧
    ∃ p, (s.at p).count 1 = 1 ∧ ∀ q, q ≠ p → 1 ∉ s.at q := by
  have h0 : Reached (.start fun _ => .mutex .create) := .start ⟨_, fun _ => .inl rfl, rfl⟩
  have h1 := h0.next (.quiet (t := .work 0) rfl .spawn)
    |>.next (.acquire (t := .work 0) .disposed rfl rfl rfl)
    |>.next (.spawnEmpty (t := .work 0) rfl rfl rfl) |>.next (.spawnNew (t := .work 0) 1 rfl rfl)
    |>.next (.acquire (t := .work 0) .queue rfl rfl rfl)
    |>.next (.enqueueTail (t := .work 0) rfl rfl rfl)
  have h2 := h1.next (.start 1 rfl) |>.next (.acquire (t := .work 1) .queue rfl rfl rfl)
    |>.next (.loopPop (t := .work 1) rfl rfl rfl) |>.next (.loopCopy (t := .work 1) rfl)
    |>.next (.loopSwitch (t := .work 1) rfl rfl)
  exact ⟨_, h2, rfl, rfl, (fiber_conservation h2).1 1 rfl rfl⟩

end Sched
