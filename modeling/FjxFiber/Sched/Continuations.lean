import FjxFiber.Sched.Conservation

/-!
# Who resumes what

A suspended context is described by its own saved stack pointer wherever another thread can find
it, and by nothing else; `continuations_owned` says so of the descriptors of fibers, of
`thread_fiber`, and of the stack that `fiber_add_deferred` writes to.
-/

set_option autoImplicit false

namespace Sched

open Lib Lib.StableQueue

variable {s : State} {t t' : Thr} {x : Ctx} {f g : Fid} {w : Wid}

/-- Another thread can pop `f`. -/
def State.Poppable (s : State) (f : Fid) : Prop :=
  f ∈ s.fiberList ∨ f ∈ s.disposedFiberList ∨ f ∈ s.timeList.map Entry.val ∨
    ∃ o, s.lock (.object o) = none ∧ f ∈ (s.obj o).waiters

/-- The thread `t` is about to resume `x`, from the descriptor of the fiber that it executes or from
its own `thread_fiber`. -/
def State.Resumes (s : State) (t : Thr) (x : Ctx) : Prop :=
  (∃ f fr rest n, s.thr t = some ⟨.fiber f, fr :: rest⟩ ∧ fr.aim ≠ none ∧ s.desc f = some ⟨x, n⟩) ∨
    ∃ w rest n, s.thr t = some ⟨.loop w, .loopSwitch :: rest⟩ ∧ s.threadFiber w = some ⟨x, n⟩

/-- The context `x` is suspended with the stack pointer that it saved itself, nothing lies above
it, and nobody executes it. -/
def State.Suspended (s : State) (x : Ctx) (top : Option StackTop) : Prop :=
  ∃ n, s.saved x = some n ∧ top = some ⟨x, n⟩ ∧ (s.susp x).length = n ∧ ¬ s.Runs x

theorem Contexts.not_runs (h : Contexts s) {n : Nat} (hs : s.saved x = some n) : ¬ s.Runs x := by
  rintro ⟨t, F, ht⟩
  rw [h.running t x F ht] at hs
  cases hs

/-- What a frame on the way to a switch goes to is what the descriptor says. -/
theorem Contexts.desc_aim (h : Contexts s) {fr : Frame} {rest : List Frame} {src : Option Fid}
    (ht : s.thr t = some ⟨.fiber f, fr :: rest⟩) (ha : fr.aim = some src) :
    ∃ n, s.desc f = some ⟨target t src, n⟩ := by
  cases fr <;> cases ha
  · exact ⟨1, (h.aim t f _ _ rest ht).1⟩
  · exact ⟨2, (h.aimed t f _ _ rest ht).1⟩

theorem Inv.resumes_cases (h : Inv s) (hr : s.Resumes t x) :
    (∃ f fr rest src, s.thr t = some ⟨.fiber f, fr :: rest⟩ ∧ fr.aim = some src ∧
      target t src = x) ∨ ∃ w g, x = .fiber g ∧ s.stored w = some g := by
  rcases hr with ⟨f, fr, rest, n, ht, ha, hd⟩ | ⟨w, rest, n, ht, hd⟩
  · obtain ⟨src, ha⟩ := Option.ne_none_iff_exists'.1 ha
    obtain ⟨m, hm⟩ := h.contexts.desc_aim ht ha
    rw [hd] at hm
    cases hm
    exact .inl ⟨f, fr, rest, src, ht, ha, rfl⟩
  · obtain ⟨g, rfl, hg, -, -⟩ := h.loopSwitch_target ht hd
    exact .inr ⟨w, g, rfl, hg⟩

/-- Who is about to resume a fiber has it in hand, or it is stored for a thread. -/
theorem Inv.resumes_fiber (h : Inv s) (hr : s.Resumes t (.fiber g)) :
    g ∈ s.place (.inl t) ∨ ∃ w, g ∈ s.place (.inr (.assigned w)) := by
  rcases h.resumes_cases hr with ⟨f, fr, rest, src, ht, ha, htar⟩ | ⟨w, g', he, hg⟩
  · obtain rfl := target_eq_fiber htar
    exact .inl (mem_place_of_held ht (by simp [Frame.held_of_aim ha]))
  · cases he
    exact .inr ⟨w, by simp [State.place, State.linked, hg]⟩

/-- Only a work thread goes back to its own loop. -/
theorem Inv.resumes_loop (h : Inv s) (hr : s.Resumes t (.loop w)) : t = .work w := by
  rcases h.resumes_cases hr with ⟨f, fr, rest, src, ht, ha, htar⟩ | ⟨w', g', he, hg⟩
  · exact (target_eq_loop htar).2
  · cases he

theorem Poppable.linked (hp : s.Poppable f) : ∃ p, f ∈ s.place (.inr p) ∧
    (∀ o, p = .wait o → s.lock (.object o) = none) ∧ ∀ w, p ≠ .assigned w := by
  rcases hp with hf | hf | hf | ⟨o, hl, hf⟩
  · exact ⟨.queue, hf, nofun, nofun⟩
  · exact ⟨.disposed, hf, nofun, nofun⟩
  · exact ⟨.timer, hf, nofun, nofun⟩
  · refine ⟨.wait o, hf, fun o' he => ?_, nofun⟩
    cases he
    exact hl

/-- The descriptor of a fiber that can be popped is its own saved stack pointer. -/
theorem Inv.poppable (h : Inv s) (hp : s.Poppable f) :
    s.Suspended (.fiber f) (s.desc f) ∧ ∀ t, ¬ s.Resumes t (.fiber f) := by
  obtain ⟨p, hf, hl, hw⟩ := Poppable.linked hp
  have hn := h.linked_not_runs (p := p) hf hl
  obtain ⟨hs, hd⟩ := h.suspended hf hn
  have hsusp := h.stack_fiber hf hn fun _ _ _ _ he => by cases he
  refine ⟨⟨1, hs, hd, by rw [hsusp]; rfl, hn⟩, fun t hr => ?_⟩
  rcases h.resumes_fiber hr with hp' | ⟨w, hp'⟩
  · cases h.fibers.place_unique hf hp'
  · cases h.fibers.place_unique hf hp'
    exact hw w rfl

theorem Inv.threadFiber (h : Inv s) {c : Ctx} {F : List Frame}
    (ht : s.thr (.work w) = some ⟨c, F⟩) (hc : c ≠ .loop w) :
    ∃ n, s.saved (.loop w) = some n ∧ s.threadFiber w = some ⟨.loop w, n⟩ ∧
      ¬ s.Runs (.loop w) ∧ ∀ t, s.Resumes t (.loop w) → t = .work w := by
  obtain ⟨hs, htf⟩ := h.contexts.loop w c F ht hc
  exact ⟨1, hs, htf, h.contexts.not_runs hs, fun t hr => h.resumes_loop hr⟩

/-- What `fiber_add_deferred` is about to write to is in the hands of its caller alone. -/
theorem Inv.push_target (h : Inv s) {d : Deferred} {src : Option Fid} {rest : List Frame}
    (ht : s.thr t = some ⟨.fiber f, .push d src :: rest⟩) :
    ∃ x, s.Suspended x (s.desc f) ∧ (∀ t', s.Resumes t' x → t' = t) ∧
      (∀ g, x = .fiber g → ∀ p, g ∈ s.at p ↔ p = .inHands t) ∧ ∀ w, x = .loop w → t = .work w := by
  obtain ⟨hd, hs, hsusp⟩ := h.contexts.aim t f d src rest ht
  have hin : ∀ {g}, target t src = .fiber g → g ∈ s.at (.inHands t) := fun {g} he => by
    obtain rfl := target_eq_fiber he
    simp [State.at, ht, Frame.held]
  refine ⟨target t src, ⟨1, hs, hd, by rw [hsusp]; rfl, h.contexts.not_runs hs⟩, fun t' hr => ?_,
    fun g he p => ⟨fun hp => h.at.place_unique hp (hin he), fun hp => hp ▸ hin he⟩,
    fun w he => (target_eq_loop he).2⟩
  rcases h.resumes_cases hr with ⟨f', fr, rest', src', ht', ha, htar⟩ | ⟨w, g, he, hg⟩
  · exact h.target_inj ht' ht ha rfl htar
  · have hp : g ∈ s.at (.linked (.assigned w)) := by simp [State.at, State.linked, hg]
    cases h.at.place_unique hp (hin he)

/-- **No context becomes resumable before it is saved.** In every reachable state

* the descriptor of a fiber that another thread can pop is the stack pointer that the fiber's own
  switch saved, or its initial one, and nobody is about to resume the fiber;
* while a work thread executes anything but its loop, its `thread_fiber` is the saved stack pointer
  of its loop, and only that thread goes back to it;
* what `fiber_add_deferred` writes to lies directly above the stack of a suspended context, which
  only the caller is about to resume and nothing else holds. -/
theorem continuations_owned (h : Reached s) :
    (∀ f, s.Poppable f → s.Suspended (.fiber f) (s.desc f) ∧ ∀ t, ¬ s.Resumes t (.fiber f)) ∧
    (∀ w c F, s.thr (.work w) = some ⟨c, F⟩ → c ≠ .loop w →
      ∃ n, s.saved (.loop w) = some n ∧ s.threadFiber w = some ⟨.loop w, n⟩ ∧
        ¬ s.Runs (.loop w) ∧ ∀ t, s.Resumes t (.loop w) → t = .work w) ∧
    ∀ t f d src rest, s.thr t = some ⟨.fiber f, .push d src :: rest⟩ →
      ∃ x, s.Suspended x (s.desc f) ∧ (∀ t', s.Resumes t' x → t' = t) ∧
        (∀ g, x = .fiber g → ∀ p, g ∈ s.at p ↔ p = .inHands t) ∧ ∀ w, x = .loop w → t = .work w :=
  ⟨fun _ hp => h.inv.poppable hp, fun _ _ _ ht hc => h.inv.threadFiber ht hc,
    fun _ _ _ _ _ ht => h.inv.push_target ht⟩

/-- The main fiber spawns two fibers and yields to the first; it is about to push its deferred
operation. -/
theorem continuations_owned_run : ∃ s, Reached s ∧ s.Suspended (.fiber 2) (s.desc 2) ∧
    s.threadFiber 0 = some ⟨.loop 0, 1⟩ ∧ ∃ x, s.Suspended x (s.desc 0) ∧ x ≠ .fiber 0 := by
  have h0 : Reached (.start fun _ => .mutex .create) := .start ⟨_, fun _ => .inl rfl, rfl⟩
  have h1 := h0.next (.quiet (t := .work 0) rfl .spawn)
    |>.next (.acquire (t := .work 0) .disposed rfl rfl rfl)
    |>.next (.spawnEmpty (t := .work 0) rfl rfl rfl) |>.next (.spawnNew (t := .work 0) 1 rfl rfl)
    |>.next (.acquire (t := .work 0) .queue rfl rfl rfl)
    |>.next (.enqueueTail (t := .work 0) rfl rfl rfl)
  have h2 := h1.next (.quiet (t := .work 0) rfl .spawn)
    |>.next (.acquire (t := .work 0) .disposed rfl rfl rfl)
    |>.next (.spawnEmpty (t := .work 0) rfl rfl rfl) |>.next (.spawnNew (t := .work 0) 2 rfl rfl)
    |>.next (.acquire (t := .work 0) .queue rfl rfl rfl)
    |>.next (.enqueueTail (t := .work 0) rfl rfl rfl)
  have h3 := h2.next (.quiet (t := .work 0) rfl .yield)
    |>.next (.acquire (t := .work 0) .queue rfl rfl rfl)
    |>.next (.availPop (t := .work 0) rfl rfl rfl) |>.next (.copyFiber (t := .work 0) rfl)
  obtain ⟨ha, hb, hc⟩ := continuations_owned h3
  obtain ⟨x, hx, -⟩ := hc (.work 0) 0 _ _ _ rfl
  refine ⟨_, h3, (ha 2 (.inl List.mem_cons_self)).1, rfl, x, hx, ?_⟩
  rintro rfl
  obtain ⟨n, hn, -⟩ := hx
  cases hn

end Sched
