import FjxFiber.Demo.DiningPhilosopher

/-!
# The end of the philosophers (`demo/dining-philosopher.c`)

`main` waits for a token of `sync_s`, and only `g` signals it, after its `fiber_sleep`. `Ending`
says so of `sync_s` and its two users; so `main` returns only when `g` has slept and signalled.
-/

set_option autoImplicit false

namespace Demo.DiningPhilosopher

open Lib Lib.Monitor Sync

namespace EnderPc

/-- In a call on `sync_s`. -/
def inCall : EnderPc → Bool
  | waiting | signalling => true
  | _ => false

/-- `g` is still to come to its call. -/
def Early : EnderPc → Prop
  | sleeping | signal => True
  | _ => False

end EnderPc

/-- **What holds of `sync_s`** and of the fibers that use it, at `ender`. -/
structure Ending (t : Monitor.State Ender SemaphoreOp (Counted Ender)) (ender : Ender → EnderPc) :
    Prop where
  calls : Client (semaphore Ender) (.create 0) (fun e => (ender e).inCall) t
  waits : ∀ op, t.place (semaphore Ender) .main = .ahead op → op = .wait
  signals : ∀ op, t.place (semaphore Ender) .g = .ahead op → op = .signal
  g : (ender .g).Early ∨ ender .g = .signalling ∨ ender .g = .done
  /-- Until `g` has signalled there is no token, and `main` has not been let through. -/
  early : (ender .g).Early ∨ t.place (semaphore Ender) .g = .ahead .signal →
    t.obj.count = 0 ∧ ender .main ≠ .returned ∧
      (ender .main = .waiting → t.place (semaphore Ender) .main ≠ .through)

variable {s s' : State} {t t' : Monitor.State Ender SemaphoreOp (Counted Ender)}
  {ender : Ender → EnderPc} {e e' : Ender} {c : Option SemaphoreOp} {p p' : EnderPc} {back : Prop}

theorem Ending.start : Ending State.start.syncS State.start.ender where
  calls := .start
  waits op h := by cases h
  signals op h := by cases h
  g := .inl trivial
  early _ := ⟨rfl, by simp [State.start], by simp [State.start]⟩

/-- The code makes a call on `sync_s`, or is in none afterwards. -/
theorem EnderExec.call (h : EnderExec back e p c p') :
    (∃ op, c = some op ∧ p.inCall = false ∧ p'.inCall = true ∧ op ≠ .destroy) ∨
      c = none ∧ (p.inCall = true → back) := by
  cases h with
  | wait => exact .inl ⟨_, rfl, rfl, rfl, by simp⟩
  | signal => exact .inl ⟨_, rfl, rfl, rfl, by simp⟩
  | wakeup h => exact .inr ⟨rfl, fun _ => h⟩
  | signalled h => exact .inr ⟨rfl, fun _ => h⟩
  | _ => exact .inr ⟨rfl, by simp [EnderPc.inCall]⟩

section
variable (h : Ending s.syncS s.ender)
  (hx : EnderExec (s.syncS.pc e = .idle) e (s.ender e) c p')
include h hx

/-- Who runs its code is in no call. -/
theorem Ending.idle : s.syncS.pc e = .idle := by
  rcases hx.call with ⟨op, -, hp, -⟩ | ⟨-, hb⟩
  · exact h.calls.idle e hp
  · cases hp : (s.ender e).inCall with
    | false => exact h.calls.idle e hp
    | true => exact hb hp

theorem Ending.exec : Ending (s.endTo e c p').syncS (s.endTo e c p').ender := by
  have hidle := h.idle hx
  have hself : (s.endTo e c p').ender e = p' := Function.update_self ..
  have hne : ∀ x, x ≠ e → (s.endTo e c p').ender x = s.ender x := fun x hx =>
    Function.update_of_ne hx _ _
  have hother : ∀ x, x ≠ e →
      ((s.endTo e c p').ender x).inCall = (s.ender x).inCall := fun x hx => by rw [hne x hx]
  have hcalls : Client (semaphore Ender) (.create 0)
      (fun e' => ((s.endTo e c p').ender e').inCall) (s.endTo e c p').syncS := by
    rcases hx.call with ⟨op, rfl, -, hp, hop⟩ | ⟨rfl, -⟩
    · exact h.calls.call hidle trivial (by simp [semaphore, hop]) (by rw [hself]; exact hp) hother
    · exact h.calls.stay hidle hother
  have hplace := place_of_idle (M := semaphore Ender) hidle
  generalize hp : s.ender e = p at hx
  cases hx with
  | spawn n hn =>
    exact ⟨hcalls, h.waits, h.signals, h.g, fun he => ⟨(h.early he).1, by rw [hself]; simp,
      by rw [hself]; simp⟩⟩
  | spawnG n hn =>
    exact ⟨hcalls, h.waits, h.signals, h.g, fun he => ⟨(h.early he).1, by rw [hself]; simp,
      by rw [hself]; simp⟩⟩
  | wait =>
    have hm : (s.syncS.at .main (.want .wait)).place (semaphore Ender) .main = .ahead .wait := by
      rw [place_call, if_pos rfl]
    have hg : (s.syncS.at .main (.want .wait)).place (semaphore Ender) .g =
        s.syncS.place (semaphore Ender) .g := by
      rw [place_call, if_neg (by simp)]
    refine ⟨hcalls, fun op hop => ?_, fun op hop => ?_, h.g, fun he => ?_⟩
    · exact (Place.ahead.inj (hm.symm.trans hop)).symm
    · exact h.signals op (hg.symm.trans hop)
    · refine ⟨(h.early (he.imp id hg.symm.trans)).1, by rw [hself]; simp, fun _ hw => ?_⟩
      cases hm.symm.trans hw
  | wakeup hb =>
    refine ⟨hcalls, h.waits, h.signals, h.g, fun he => ?_⟩
    exact absurd hplace ((h.early he).2.2 hp)
  | awake =>
    refine ⟨hcalls, h.waits, h.signals, .inl trivial, fun _ => ?_⟩
    exact h.early (.inl (by rw [hp]; trivial))
  | signal =>
    have hg : (s.syncS.at .g (.want .signal)).place (semaphore Ender) .g = .ahead .signal := by
      rw [place_call, if_pos rfl]
    have hm : (s.syncS.at .g (.want .signal)).place (semaphore Ender) .main =
        s.syncS.place (semaphore Ender) .main := by
      rw [place_call, if_neg (by simp)]
    obtain ⟨hc, hr, hw⟩ := h.early (.inl (by rw [hp]; trivial))
    refine ⟨hcalls, fun op hop => ?_, fun op hop => ?_, .inr (.inl rfl),
      fun _ => ⟨hc, hr, fun hm' => ?_⟩⟩
    · exact h.waits op (hm.symm.trans hop)
    · exact (Place.ahead.inj (hg.symm.trans hop)).symm
    · exact fun he => hw hm' (hm.symm.trans he)
  | signalled hb =>
    refine ⟨hcalls, h.waits, h.signals, .inr (.inr rfl), fun he => ?_⟩
    rcases he with he | he
    · rw [hself] at he
      cases he
    · cases hplace.symm.trans he

end

/-- A step of a call on `sync_s`: until the signal of `g` a wait finds no token. -/
theorem Ending.internal (h : Ending t ender) (hi : Internal (semaphore Ender) t t') :
    Ending t' ender := by
  have hcalls := h.calls.internal FiberSemaphore.lawful hi
  have hI : Monitor.Inv (semaphore Ender) t := Reach.inv FiberSemaphore.lawful rfl h.calls.reach
  rcases hi.seen FiberSemaphore.lawful hI with ⟨hobj, hplace⟩ | ⟨f, op, hb, hobj, hself, hother⟩
  · refine ⟨hcalls, fun op hop => h.waits op (by rw [← hplace, hop]),
      fun op hop => h.signals op (by rw [← hplace, hop]), h.g, fun he => ?_⟩
    rw [hplace] at he
    rw [hobj, hplace]
    exact h.early he
  · have hahead : ∀ {x op'}, t'.place (semaphore Ender) x = .ahead op' →
        x ≠ f ∧ t.place (semaphore Ender) x = .ahead op' := by
      intro x op' hop
      by_cases hx : x = f
      · rw [hx, hself] at hop
        split at hop <;> cases hop
      · rw [hother x hx] at hop
        split at hop
        · cases hop
        · exact ⟨hx, hop⟩
    refine ⟨hcalls, fun op' hop => h.waits op' (hahead hop).2,
      fun op' hop => h.signals op' (hahead hop).2, h.g, fun he => ?_⟩
    -- `g` has not run its section, so it is `main` that waits
    have hfg : f ≠ .g := by
      rintro rfl
      rcases he with he | he
      · have hbusy : (ender .g).inCall = false := by
          cases hg : ender .g with
          | sleeping => rfl
          | signal => rfl
          | _ => rw [hg] at he; cases he
        cases (place_of_idle (M := semaphore Ender) (h.calls.idle .g hbusy)).symm.trans hb
      · exact (hahead he).1 rfl
    obtain rfl : f = .main := by cases f <;> first | rfl | exact absurd rfl hfg
    obtain rfl := h.waits op hb
    obtain ⟨hc, hr, -⟩ := h.early (he.imp id fun he => (hahead he).2)
    rcases FiberSemaphore.sec_cases .wait Ender.main t.obj with ⟨-, h0, -⟩ | ⟨-, -, hs⟩ |
      ⟨_, _, hop, -⟩ | ⟨hop, -⟩ | ⟨hop, -⟩ | ⟨hop, -⟩ | ⟨hop, -⟩
    · rw [hc] at h0
      exact absurd h0 (by decide)
    · rw [hs] at hobj hself
      refine ⟨by rw [hobj]; exact hc, hr, fun _ hthrough => ?_⟩
      cases hself.symm.trans hthrough
    all_goals cases hop

theorem Reached.ending (h : Reached s) : Ending s.syncS s.ender := by
  refine h.invariant (J := fun s => Ending s.syncS s.ender) ?_ ?_
  · intro s hs
    rw [hs]
    exact .start
  · intro s s' h hs
    cases hs with
    | @exec i a p _ _ hx => cases a <;> exact h
    | mutex t _ hi => exact h
    | semaphore k t _ hi => exact h
    | ender e _ _ hx => exact h.exec hx
    | syncS t _ hi => exact h.internal hi

/-- **`main` returns only when `g` has slept and signalled.** -/
theorem Ending.signalled (h : Ending s.syncS s.ender) (ho : s.Over) :
    s.ender .g = .signalling ∨ s.ender .g = .done :=
  h.g.resolve_left fun he => (h.early (.inl he)).2.1 ho

end Demo.DiningPhilosopher
