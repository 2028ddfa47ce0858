import FjxFiber.Sched.Invariant

/-!
# Suspended contexts

Every step keeps `Contexts`. Most steps only change the frames of the thread that takes them
(`Contexts.calm`). The two switches are one change of context (`Contexts.resume`); the steps on the
way to a switch change the descriptor of the fiber that is to be suspended, or the stack of the
context that is to be resumed. They can do so because a fiber in the hands of a call, or stored for
a thread, is suspended and nobody else is about to resume it (`Inv.held_suspended`,
`Inv.assigned_suspended`).
-/

set_option autoImplicit false

namespace Sched

open Lib

variable {s s' : State} {t t' : Thr} {c c' : Ctx} {F F' : List Frame} {f g : Fid} {w : Wid}

/-! ## Which fibers are suspended -/

theorem place_thr (ht : s.thr t = some ⟨c, F⟩) : s.place (.inl t) = tokens c F := by
  simp [State.place, ht]

/-- A fiber that a thread executes is one of its tokens, unless it is suspending itself. -/
theorem Inv.place_of_runs (h : Inv s) (ht : s.thr t = some ⟨.fiber g, F⟩) :
    (execOf (.fiber g) F = [g] ∧ g ∈ s.place (.inl t)) ∨
      ∃ o, g ∈ s.place (.inr (.wait o)) ∧ s.lock (.object o) = some t := by
  rcases F with _ | ⟨fr, rest⟩
  · exact (h.contexts.shape _ _ _ ht).1.ne_nil.elim
  cases hp : fr.publishes with
  | some o =>
    have ho := h.locks.held t _ fr rest o ht (Frame.guards_of_publishes hp)
    exact .inr ⟨o, h.locks.linked t g fr rest o ht hp, ho⟩
  | none =>
    refine .inl ⟨execOf_cons hp rest, ?_⟩
    rw [place_thr ht, tokens, execOf_cons hp]
    exact List.mem_append_left _ List.mem_cons_self

theorem mem_place_of_held (ht : s.thr t = some ⟨c, F⟩) (hg : g ∈ F.flatMap Frame.held) :
    g ∈ s.place (.inl t) := by
  rw [place_thr ht]
  exact List.mem_append_right _ hg

/-- A fiber in the hands of a call is not executed. -/
theorem Inv.held_not_runs (h : Inv s) (ht : s.thr t = some ⟨c, F⟩)
    (hg : g ∈ F.flatMap Frame.held) : ¬ s.Runs (.fiber g) := by
  rintro ⟨t', F', ht'⟩
  have hp := mem_place_of_held ht hg
  rcases h.place_of_runs ht' with ⟨he, hp'⟩ | ⟨o, hp', -⟩
  · cases h.fibers.place_unique hp hp'
    rw [ht] at ht'
    cases ht'
    have h1 := h.fibers.count_eq_one hp
    rw [place_thr ht, tokens, he, List.count_append, List.count_singleton_self] at h1
    have := List.count_pos_iff.2 hg
    omega
  · cases h.fibers.place_unique hp hp'

/-- A linked fiber is not executed, unless it is suspending itself under the lock of an object. -/
theorem Inv.linked_not_runs (h : Inv s) {p : Home} (hg : g ∈ s.linked p)
    (hl : ∀ o, p = .wait o → s.lock (.object o) = none) : ¬ s.Runs (.fiber g) := by
  rintro ⟨t', F', ht'⟩
  rcases h.place_of_runs ht' with ⟨-, hp'⟩ | ⟨o, hp', ho⟩
  · cases h.fibers.place_unique (p := .inr p) hg hp'
  · cases h.fibers.place_unique (p := .inr p) hg hp'
    rw [hl o rfl] at ho
    cases ho

/-- A fiber that is not executed has been saved, and its descriptor says where. -/
theorem Inv.suspended (h : Inv s) {p : Thr ⊕ Home} (hp : g ∈ s.place p)
    (hn : ¬ s.Runs (.fiber g)) :
    s.saved (.fiber g) = some 1 ∧ s.desc g = some ⟨.fiber g, 1⟩ := by
  obtain ⟨n, hs⟩ := (h.contexts.present g (h.fibers.live_of_mem hp).1).resolve_right hn
  obtain ⟨rfl, -⟩ := h.contexts.stack _ n hs
  exact ⟨hs, h.contexts.fiber g 1 hs⟩

theorem target_eq_fiber {src : Option Fid} (h : target t src = .fiber g) : src = some g := by
  rcases src with _ | g'
  · cases t <;> cases h
  · cases h
    rfl

theorem target_eq_loop {src : Option Fid} (h : target t src = .loop w) :
    src = none ∧ t = .work w := by
  rcases src with _ | g'
  · cases t <;> cases h
    exact ⟨rfl, rfl⟩
  · cases h

/-- The fiber that a frame is to switch to is in the hands of that frame only. -/
theorem Inv.stack_fiber (h : Inv s) {p : Thr ⊕ Home} (hp : g ∈ s.place p)
    (hn : ¬ s.Runs (.fiber g))
    (hsw : ∀ t f d rest, p = .inl t → s.thr t ≠ some ⟨.fiber f, .switch d (some g) :: rest⟩) :
    s.susp (.fiber g) = [.user] := by
  obtain ⟨hs, -⟩ := h.suspended hp hn
  rcases (h.contexts.stack _ 1 hs).2 with he | ⟨t', f, d, src, rest, ht', htar⟩
  · exact he
  · obtain rfl := target_eq_fiber htar
    have hp' := mem_place_of_held (g := g) ht' (by simp [Frame.held])
    exact absurd ht' (hsw t' f d rest (h.fibers.place_unique hp hp'))

/-- **A fiber in the hands of a call is suspended**, with nothing pushed on its stack. -/
theorem Inv.held_suspended (h : Inv s) (ht : s.thr t = some ⟨c, F⟩)
    (hg : g ∈ F.flatMap Frame.held) (hF : ∀ d src rest, F ≠ .switch d src :: rest) :
    s.saved (.fiber g) = some 1 ∧ s.desc g = some ⟨.fiber g, 1⟩ ∧
      s.susp (.fiber g) = [.user] := by
  have hn := h.held_not_runs ht hg
  have hp := mem_place_of_held ht hg
  refine and_assoc.1 ⟨h.suspended hp hn, h.stack_fiber hp hn fun t' f d rest he ht' => ?_⟩
  cases he
  rw [ht] at ht'
  cases ht'
  exact hF _ _ _ rfl

/-- **A fiber stored for a thread is suspended**, with nothing pushed on its stack. -/
theorem Inv.assigned_suspended (h : Inv s) (hg : s.stored w = some g) :
    s.saved (.fiber g) = some 1 ∧ s.desc g = some ⟨.fiber g, 1⟩ ∧
      s.susp (.fiber g) = [.user] := by
  have hp : g ∈ s.place (.inr (.assigned w)) := by simp [State.place, State.linked, hg]
  have hn := h.linked_not_runs (p := .assigned w) hp (fun o ho => by cases ho)
  exact and_assoc.1 ⟨h.suspended hp hn, h.stack_fiber hp hn fun _ _ _ _ he => by cases he⟩

/-! ## A change of frames -/

/-- What `Contexts` is about, apart from what the threads execute. -/
def State.memory (s : State) :
    (Ctx → List Frame) × (Ctx → Option Nat) × (Fid → Option StackTop) × (Wid → Option StackTop) ×
      (Wid → Option Fid) × (Fid → Bool) :=
  (s.susp, s.saved, s.desc, s.threadFiber, s.stored, s.spawned)

theorem Contexts.shape_of (h : Contexts s) (ht : s.thr t = some ⟨c, F⟩) : Shape c F :=
  (h.shape t c F ht).1

/-- A thread has one frame on top. -/
theorem ne_of_frame {fr fr' : Frame} (ht : s.thr t = some ⟨c, fr :: F⟩)
    (ht' : s.thr t' = some ⟨c', fr' :: F'⟩) (hfr : fr ≠ fr') : t ≠ t' := by
  rintro rfl
  rw [ht] at ht'
  cases ht'
  exact hfr rfl

theorem thr_self {r : Option Running} (hthr : s'.thr = Function.update s.thr t r) :
    s'.thr t = r := by
  rw [hthr, Function.update_self]

theorem thr_other {r : Option Running} (hthr : s'.thr = Function.update s.thr t r)
    (hne : t' ≠ t) : s'.thr t' = s.thr t' := by
  rw [hthr, Function.update_of_ne hne]

theorem thr_update {r r' : Running} (hthr : s'.thr = Function.update s.thr t (some r))
    (ht' : s'.thr t' = some r') : (t' = t ∧ r' = r) ∨ (t' ≠ t ∧ s.thr t' = some r') := by
  rw [hthr] at ht'
  by_cases he : t' = t
  · subst he
    rw [Function.update_self] at ht'
    exact .inl ⟨rfl, (Option.some.inj ht').symm⟩
  · rw [Function.update_of_ne he] at ht'
    exact .inr ⟨he, ht'⟩

theorem thr_update_none {r : Running} (hthr : s'.thr = Function.update s.thr t (some r))
    (ht' : s'.thr t' = none) : t' ≠ t ∧ s.thr t' = none := by
  have he : t' ≠ t := fun he => by
    rw [hthr, he, Function.update_self] at ht'
    cases ht'
  exact ⟨he, by rwa [hthr, Function.update_of_ne he] at ht'⟩

/-- What a frame on the way to a switch is to switch to. -/
def Frame.aim : Frame → Option (Option Fid)
  | push _ src | switch _ src => some src
  | _ => none

theorem Frame.held_of_aim {fr : Frame} (h : fr.aim = some (some g)) : g ∈ fr.held := by
  cases fr <;> cases h <;> exact List.mem_singleton_self g

theorem aim_base : ∀ x ∈ [base c].head?, x.aim = none :=
  head_cons (by cases c <;> rfl)

section
variable (ht : s.thr t = some ⟨c, F⟩) (hthr : s'.thr = Function.update s.thr t (some ⟨c, F'⟩))
include ht hthr

/-- A thread that goes on with its context executes the context that it executed before. -/
theorem runs_before {G : List Frame} (ht' : s'.thr t' = some ⟨c', G⟩) :
    ∃ G', s.thr t' = some ⟨c', G'⟩ := by
  rcases thr_update hthr ht' with ⟨rfl, hr⟩ | ⟨-, ht'⟩
  · cases hr
    exact ⟨F, ht⟩
  · exact ⟨G, ht'⟩

theorem runs_after (hr : s.Runs c') : s'.Runs c' := by
  obtain ⟨t', G, ht'⟩ := hr
  by_cases he : t' = t
  · subst he
    rw [ht] at ht'
    cases ht'
    exact ⟨t', F', by rw [hthr, Function.update_self]⟩
  · exact ⟨t', G, by rw [hthr, Function.update_of_ne he, ht']⟩

/-- **A change of frames** of a thread. -/
theorem Contexts.frames (h : Contexts s) (hm : s'.memory = s.memory) (hshape : Shape c F')
    (hF : ∀ d src rest, F ≠ .switch d src :: rest)
    (hpush : ∀ f d src rest, c = .fiber f → F' = .push d src :: rest →
      s.desc f = some ⟨target t src, 1⟩ ∧ s.saved (target t src) = some 1 ∧
        s.susp (target t src) = [base (target t src)])
    (hswitch : ∀ d src rest, F' ≠ .switch d src :: rest) : Contexts s' := by
  simp only [State.memory, Prod.mk.injEq] at hm
  obtain ⟨hsusp, hsaved, hdesc, htf, hst, hsp⟩ := hm
  refine ⟨fun t' c' G ht' => ?_, fun t' t'' c' G G' ht' ht'' => ?_, fun t' c' G ht' => ?_, ?_, ?_,
    fun w c' G ht' => ?_, fun w ht' => ?_, fun c' n hs => ?_, fun t' f d src rest ht' => ?_,
    fun t' f d src rest ht' => ?_, ?_⟩
  · rcases thr_update hthr ht' with ⟨rfl, hr⟩ | ⟨-, ht'⟩
    · cases hr
      exact ⟨hshape, (h.shape t' c F ht).2⟩
    · exact h.shape t' c' G ht'
  · obtain ⟨H, hH⟩ := runs_before ht hthr ht'
    obtain ⟨H', hH'⟩ := runs_before ht hthr ht''
    exact h.sole t' t'' c' H H' hH hH'
  · obtain ⟨H, hH⟩ := runs_before ht hthr ht'
    rw [hsaved]
    exact h.running t' c' H hH
  · rw [hsaved, hdesc]
    exact h.fiber
  · rw [hsp, hsaved]
    exact fun f hf => (h.present f hf).imp id (runs_after ht hthr)
  · obtain ⟨H, hH⟩ := runs_before ht hthr ht'
    rw [hsaved, htf]
    exact h.loop w c' H hH
  · rw [hsaved]
    exact h.unborn w (thr_update_none hthr ht').2
  · rw [hsaved] at hs
    rw [hsusp]
    obtain ⟨hn, hc⟩ := h.stack c' n hs
    refine ⟨hn, hc.imp id ?_⟩
    rintro ⟨t', f, d, src, rest, ht', htar⟩
    refine ⟨t', f, d, src, rest, ?_, htar⟩
    have he : t' ≠ t := fun he => by
      rw [he, ht] at ht'
      cases ht'
      exact hF _ _ _ rfl
    rw [hthr, Function.update_of_ne he, ht']
  · rw [hsaved, hdesc, hsusp]
    rcases thr_update hthr ht' with ⟨rfl, hr⟩ | ⟨-, ht'⟩
    · cases hr
      exact hpush f d src rest rfl rfl
    · exact h.aim t' f d src rest ht'
  · rw [hsaved, hdesc, hsusp]
    rcases thr_update hthr ht' with ⟨rfl, hr⟩ | ⟨-, ht'⟩
    · cases hr
      exact absurd rfl (hswitch d src rest)
    · exact h.aimed t' f d src rest ht'
  · rw [hst, htf]
    exact h.stored

/-- A change of frames that has nothing to do with a switch. -/
theorem Contexts.calm (h : Contexts s) (hm : s'.memory = s.memory) (hshape : Shape c F')
    (hF : ∀ fr ∈ F.head?, fr.aim = none) (hF' : ∀ fr ∈ F'.head?, fr.aim = none) :
    Contexts s' := by
  refine h.frames ht hthr hm hshape (fun d src rest he => ?_) (fun f d src rest _ he => ?_)
    fun d src rest he => ?_
  · subst he
    cases hF _ rfl
  · subst he
    cases hF' _ rfl
  · subst he
    cases hF' _ rfl

end

/-- The descriptor of a fiber that is executed is free, unless the fiber is on the way to a
switch. -/
theorem Contexts.setDesc (h : Contexts s) (ht : s.thr t = some ⟨.fiber f, F⟩)
    (hF : ∀ fr ∈ F.head?, fr.aim = none) (top : Option StackTop) : Contexts (s.setDesc f top) := by
  have hne : ∀ {t' f' fr rest src}, fr.aim = some src →
      s.thr t' = some ⟨.fiber f', fr :: rest⟩ → f' ≠ f := fun {t' f' fr rest src} hfr ht' he => by
    subst he
    cases h.sole t t' _ _ _ ht ht'
    rw [ht] at ht'
    cases ht'
    rw [hF fr rfl] at hfr
    cases hfr
  refine { h with fiber := fun g n hs => ?_, aim := fun t' f' d src rest ht' => ?_,
                  aimed := fun t' f' d src rest ht' => ?_ }
  · have hg : g ≠ f := fun he => by
      have hr := h.running t _ F ht
      rw [← he] at hr
      exact absurd (hr.symm.trans hs) (by simp)
    exact (Function.update_of_ne hg _ _).trans (h.fiber g n hs)
  · have ha := h.aim t' f' d src rest ht'
    exact ⟨(Function.update_of_ne (hne rfl ht') _ _).trans ha.1, ha.2⟩
  · have ha := h.aimed t' f' d src rest ht'
    exact ⟨(Function.update_of_ne (hne rfl ht') _ _).trans ha.1, ha.2⟩

/-! ## The way to a switch -/

/-- Two threads are not on the way to the same context. -/
theorem Inv.target_inj (h : Inv s) {fr fr' : Frame} {rest rest' : List Frame}
    {src src' : Option Fid} (ht : s.thr t = some ⟨c, fr :: rest⟩)
    (ht' : s.thr t' = some ⟨c', fr' :: rest'⟩) (ha : fr.aim = some src) (ha' : fr'.aim = some src')
    (he : target t src = target t' src') : t = t' := by
  rcases src with _ | g
  · rcases src' with _ | g'
    · cases t <;> cases t' <;> cases he <;> rfl
    · exact absurd (target_eq_fiber he) (by simp)
  · obtain rfl := target_eq_fiber he.symm
    have hm : ∀ {fr : Frame} {rest}, fr.aim = some (some g) →
        g ∈ (fr :: rest).flatMap Frame.held := fun ha => by simp [Frame.held_of_aim ha]
    cases h.fibers.place_unique (mem_place_of_held ht (hm ha)) (mem_place_of_held ht' (hm ha'))
    rfl

/-- `fiber_add_deferred` writes one frame above the context that is to be resumed. -/
theorem Inv.contexts_push (h : Inv s) {d : Deferred} {src : Option Fid} {rest : List Frame}
    {x : Ctx} {n : Nat} (ht : s.thr t = some ⟨.fiber f, .push d src :: rest⟩)
    (hd : s.desc f = some ⟨x, n⟩) :
    Contexts { (s.run t (.fiber f) (.switch d src :: rest)).setDesc f (some ⟨x, n + 1⟩) with
      susp := Function.update s.susp x (d.frame :: cut n (s.susp x)) } := by
  have hc := h.contexts
  obtain ⟨hdesc, hsaved, hsusp⟩ := hc.aim t f d src rest ht
  rw [hd] at hdesc
  cases hdesc
  have hcut : d.frame :: cut 1 (s.susp (target t src)) = [d.frame, base (target t src)] := by
    rw [hsusp]
    rfl
  rw [hcut]
  generalize hs' : ({ (s.run t (.fiber f) (.switch d src :: rest)).setDesc f
      (some ⟨target t src, 1 + 1⟩) with
      susp := Function.update s.susp (target t src) [d.frame, base (target t src)] } : State) = s'
  have hthr : s'.thr = Function.update s.thr t (some ⟨.fiber f, .switch d src :: rest⟩) := by
    rw [← hs']
    rfl
  have hself : s'.thr t = some ⟨.fiber f, .switch d src :: rest⟩ := by
    rw [hthr, Function.update_self]
  have hsaved' : s'.saved = s.saved := by rw [← hs']; rfl
  have hsusp' : ∀ y, y ≠ target t src → s'.susp y = s.susp y := fun y hy => by
    rw [← hs']
    exact Function.update_of_ne hy _ _
  have hdesc' : ∀ g, g ≠ f → s'.desc g = s.desc g := fun g hg => by
    rw [← hs']
    exact Function.update_of_ne hg _ _
  -- what another thread is about to switch to, and with which descriptor, is not touched
  have hother : ∀ {t' f' fr rest' src'}, t' ≠ t → fr.aim = some src' →
      s.thr t' = some ⟨.fiber f', fr :: rest'⟩ → f' ≠ f ∧ target t' src' ≠ target t src :=
    fun {t' f' fr rest' src'} hne hfr ht' =>
      ⟨fun he => hne (hc.sole _ _ _ _ _ (he ▸ ht') ht),
        fun he => hne (h.target_inj ht' ht hfr rfl he)⟩
  refine ⟨fun t' c' G ht' => ?_, fun t' t'' c' G G' ht' ht'' => ?_, fun t' c' G ht' => ?_,
    fun g n hs => ?_, fun g hg => ?_, fun w c' G ht' => ?_, fun w ht' => ?_, fun c' n hs => ?_,
    fun t' f' d' src' rest' ht' => ?_, fun t' f' d' src' rest' ht' => ?_, ?_⟩
  · rcases thr_update hthr ht' with ⟨rfl, hr⟩ | ⟨-, ht'⟩
    · cases hr
      obtain ⟨hsh, hon⟩ := hc.shape _ _ _ ht
      obtain ⟨rfl, hin⟩ := hsh.inner rfl
      exact ⟨.call _ _ hin, hon⟩
    · exact hc.shape t' c' G ht'
  · obtain ⟨H, hH⟩ := runs_before ht hthr ht'
    obtain ⟨H', hH'⟩ := runs_before ht hthr ht''
    exact hc.sole t' t'' c' H H' hH hH'
  · obtain ⟨H, hH⟩ := runs_before ht hthr ht'
    rw [hsaved']
    exact hc.running t' c' H hH
  · rw [hsaved'] at hs
    have hg : g ≠ f := fun he => by
      have hr := hc.running t _ _ ht
      rw [← he, hs] at hr
      cases hr
    rw [hdesc' g hg]
    exact hc.fiber g n hs
  · rw [hsaved']
    refine (hc.present g ?_).imp id (runs_after ht hthr)
    rw [← hs'] at hg
    exact hg
  · obtain ⟨H, hH⟩ := runs_before ht hthr ht'
    rw [hsaved', ← hs']
    exact hc.loop w c' H hH
  · rw [hsaved']
    exact hc.unborn w (thr_update_none hthr ht').2
  · rw [hsaved'] at hs
    obtain ⟨hn, hst⟩ := hc.stack c' n hs
    refine ⟨hn, ?_⟩
    by_cases hy : c' = target t src
    · exact .inr ⟨t, f, d, src, rest, hself, hy.symm⟩
    · rw [hsusp' c' hy]
      refine hst.imp id ?_
      rintro ⟨t', f', d', src', rest', ht', htar⟩
      refine ⟨t', f', d', src', rest', ?_, htar⟩
      have hne : t' ≠ t := fun he => by
        rw [he, ht] at ht'
        cases ht'
      rw [hthr, Function.update_of_ne hne, ht']
  · rcases thr_update hthr ht' with ⟨-, hr⟩ | ⟨hne, ht'⟩
    · cases hr
    · obtain ⟨hf, hx⟩ := hother hne rfl ht'
      rw [hdesc' f' hf, hsaved', hsusp' _ hx]
      exact hc.aim t' f' d' src' rest' ht'
  · rcases thr_update hthr ht' with ⟨rfl, hr⟩ | ⟨hne, ht'⟩
    · cases hr
      rw [hsaved', ← hs']
      exact ⟨Function.update_self _ _ _, hsaved, Function.update_self _ _ _⟩
    · obtain ⟨hf, hx⟩ := hother hne rfl ht'
      rw [hdesc' f' hf, hsaved', hsusp' _ hx]
      exact hc.aimed t' f' d' src' rest' ht'
  · rw [← hs']
    exact hc.stored

/-! ## A change of context -/

theorem Ctx.On.loop (h : Ctx.On t (.loop w)) : t = .work w := h

/-- **A change of context**: `t` suspends the context `c` and resumes `x`, which nobody else is
about to resume. -/
theorem Contexts.resume (h : Contexts s) {x : Ctx} (ht : s.thr t = some ⟨c, F⟩)
    (hx : s.saved x = some 1) (hon : x.On t) (hshape : Shape x F')
    (hF : ∀ d src rest, F = .switch d src :: rest → target t src = x)
    (hF' : ∀ fr ∈ F'.head?, fr.aim = none)
    (honly : ∀ t' c' fr rest src, s.thr t' = some ⟨c', fr :: rest⟩ → fr.aim = some src →
      target t' src = x → t' = t)
    (hthr : s'.thr = Function.update s.thr t (some ⟨x, F'⟩))
    (hsusp : s'.susp = Function.update s.susp c [base c])
    (hsaved : s'.saved = Function.update (Function.update s.saved c (some 1)) x none)
    (hdesc : ∀ f, s'.desc f = if c = .fiber f then some ⟨c, 1⟩ else s.desc f)
    (htf : ∀ w, s'.threadFiber w = if c = .loop w then some ⟨c, 1⟩ else s.threadFiber w)
    (hst : ∀ w, s'.stored w = if c = .loop w then none else s.stored w)
    (hsp : s'.spawned = s.spawned) : Contexts s' := by
  have hxc : x ≠ c := fun he => by
    have hr := h.running t c F ht
    rw [← he, hx] at hr
    cases hr
  have hsx : s'.saved x = none := by rw [hsaved, Function.update_self]
  have hsc : s'.saved c = some 1 := by
    rw [hsaved, Function.update_of_ne (Ne.symm hxc), Function.update_self]
  have hso : ∀ y, y ≠ x → y ≠ c → s'.saved y = s.saved y := fun y hy hy' => by
    rw [hsaved, Function.update_of_ne hy, Function.update_of_ne hy']
  have hne : ∀ {t' c' G}, t' ≠ t → s.thr t' = some ⟨c', G⟩ → c' ≠ c ∧ c' ≠ x :=
    fun {t' c' G} ht' hr => ⟨fun he => ht' (h.sole _ _ _ _ _ (he ▸ hr) ht), fun he => by
      have := h.running t' c' G hr
      rw [he, hx] at this
      cases this⟩
  have hloop : ∀ {w}, t ≠ .work w → c ≠ .loop w ∧ x ≠ .loop w := fun {w} hw =>
    ⟨fun he => hw (Ctx.On.loop (he ▸ (h.shape t c F ht).2)), fun he => hw (Ctx.On.loop (he ▸ hon))⟩
  have haim : ∀ {t' f fr rest src}, fr.aim = some src → s'.thr t' = some ⟨.fiber f, fr :: rest⟩ →
      s.saved (target t' src) = some 1 → s.thr t' = some ⟨.fiber f, fr :: rest⟩ ∧
        s'.desc f = s.desc f ∧ s'.saved (target t' src) = s.saved (target t' src) ∧
        s'.susp (target t' src) = s.susp (target t' src) :=
    fun {t' f fr rest src} hfr ht' hs => by
    rcases thr_update hthr ht' with ⟨-, hr⟩ | ⟨he, ht'⟩
    · cases hr
      rw [hF' fr rfl] at hfr
      cases hfr
    · have hy : target t' src ≠ x := fun hy => he (honly t' _ fr rest src ht' hfr hy)
      have hy' : target t' src ≠ c := fun hy => by
        rw [hy, h.running t c F ht] at hs
        cases hs
      refine ⟨ht', ?_, hso _ hy hy', by rw [hsusp, Function.update_of_ne hy']⟩
      rw [hdesc, if_neg (Ne.symm (hne he ht').1)]
  refine ⟨fun t' c' G ht' => ?_, fun t' t'' c' G G' ht' ht'' => ?_, fun t' c' G ht' => ?_,
    fun g n hs => ?_, fun g hg => ?_, fun w c' G ht' hw => ?_, fun w ht' => ?_,
    fun c' n hs => ?_, fun t' f d src rest ht' => ?_, fun t' f d src rest ht' => ?_,
    fun w g hw => ?_⟩
  · rcases thr_update hthr ht' with ⟨rfl, hr⟩ | ⟨-, ht'⟩
    · cases hr
      exact ⟨hshape, hon⟩
    · exact h.shape t' c' G ht'
  · rcases thr_update hthr ht' with ⟨rfl, hr⟩ | ⟨he, ht'⟩
    · cases hr
      rcases thr_update hthr ht'' with ⟨rfl, -⟩ | ⟨he', ht''⟩
      · rfl
      · exact absurd rfl (hne he' ht'').2
    · rcases thr_update hthr ht'' with ⟨rfl, hr⟩ | ⟨-, ht''⟩
      · cases hr
        exact absurd rfl (hne he ht').2
      · exact h.sole t' t'' c' G G' ht' ht''
  · rcases thr_update hthr ht' with ⟨-, hr⟩ | ⟨he, ht'⟩
    · cases hr
      exact hsx
    · rw [hso c' (hne he ht').2 (hne he ht').1]
      exact h.running t' c' G ht'
  · rw [hdesc]
    by_cases he : c = .fiber g
    · rw [← he, hsc] at hs
      rw [if_pos he, he, Option.some.inj hs]
    · have hy : Ctx.fiber g ≠ x := fun hy => by
        rw [hy, hsx] at hs
        cases hs
      rw [hso _ hy (Ne.symm he)] at hs
      rw [if_neg he]
      exact h.fiber g n hs
  · rw [hsp] at hg
    by_cases hy : Ctx.fiber g = x
    · exact .inr ⟨t, F', by rw [hthr, Function.update_self, hy]⟩
    · by_cases he : Ctx.fiber g = c
      · exact .inl ⟨1, he ▸ hsc⟩
      · rcases h.present g hg with ⟨n, hs⟩ | ⟨t', G, ht'⟩
        · exact .inl ⟨n, by rw [hso _ hy he, hs]⟩
        · have htt : t' ≠ t := fun htt => by
            rw [htt, ht] at ht'
            cases ht'
            exact he rfl
          exact .inr ⟨t', G, by rw [hthr, Function.update_of_ne htt, ht']⟩
  · rw [htf]
    rcases thr_update hthr ht' with ⟨htt, hr⟩ | ⟨he, ht'⟩
    · cases hr
      by_cases hc : c = .loop w
      · rw [if_pos hc, ← hc]
        exact ⟨hsc, rfl⟩
      · rw [if_neg hc, hso _ (Ne.symm hw) (Ne.symm hc)]
        exact h.loop w c F (htt ▸ ht) hc
    · obtain ⟨hc, hx'⟩ := hloop (w := w) (Ne.symm he)
      rw [if_neg hc, hso _ (Ne.symm hx') (Ne.symm hc)]
      exact h.loop w c' G ht' hw
  · obtain ⟨he, ht'⟩ := thr_update_none hthr ht'
    obtain ⟨hc, hx'⟩ := hloop (w := w) (Ne.symm he)
    rw [hso _ (Ne.symm hx') (Ne.symm hc)]
    exact h.unborn w ht'
  · have hy : c' ≠ x := fun hy => by
      rw [hy, hsx] at hs
      cases hs
    by_cases hc : c' = c
    · rw [hc, hsc] at hs
      rw [hc, hsusp, Function.update_self]
      exact ⟨(Option.some.inj hs).symm, .inl rfl⟩
    · rw [hso c' hy hc] at hs
      obtain ⟨hn, hst'⟩ := h.stack c' n hs
      rw [hsusp, Function.update_of_ne hc]
      refine ⟨hn, hst'.imp id ?_⟩
      rintro ⟨t', f, d, src, rest, ht', htar⟩
      have htt : t' ≠ t := fun htt => by
        subst htt
        rw [ht] at ht'
        cases ht'
        exact hy (htar.symm.trans (hF d src rest rfl))
      exact ⟨t', f, d, src, rest, by rw [hthr, Function.update_of_ne htt, ht'], htar⟩
  · rcases thr_update hthr ht' with ⟨-, hr⟩ | ⟨-, hr⟩
    · cases hr
      cases hF' _ rfl
    · obtain ⟨-, h1, h2, h3⟩ := haim rfl ht' (h.aim t' f d src rest hr).2.1
      rw [h1, h2, h3]
      exact h.aim t' f d src rest hr
  · rcases thr_update hthr ht' with ⟨-, hr⟩ | ⟨-, hr⟩
    · cases hr
      cases hF' _ rfl
    · obtain ⟨-, h1, h2, h3⟩ := haim rfl ht' (h.aimed t' f d src rest hr).2.1
      rw [h1, h2, h3]
      exact h.aimed t' f d src rest hr
  · rw [hst] at hw
    by_cases hc : c = .loop w
    · rw [if_pos hc] at hw
      cases hw
    · rw [if_neg hc] at hw
      rw [htf, if_neg hc]
      exact h.stored w g hw

/-- What `fiber_switch` resumes: the context aimed at, with the deferred operation on top. -/
theorem Inv.switch_target (h : Inv s) {d : Deferred} {src : Option Fid} {rest : List Frame}
    {x : Ctx} {n : Nat} (ht : s.thr t = some ⟨.fiber f, .switch d src :: rest⟩)
    (hd : s.desc f = some ⟨x, n⟩) :
    x = target t src ∧ s.saved x = some 1 ∧ rest = [.user] ∧
      cut n (s.susp x) = [d.frame, base x] := by
  obtain ⟨hdesc, hsaved, hsusp⟩ := h.contexts.aimed t f d src rest ht
  rw [hd] at hdesc
  cases hdesc
  refine ⟨rfl, hsaved, ((h.contexts.shape_of ht).inner rfl).1, ?_⟩
  rw [hsusp]
  rfl

/-- `fiber_switch`, by a fiber. -/
theorem Inv.contexts_switch (h : Inv s) {d : Deferred} {src : Option Fid} {rest : List Frame}
    {x : Ctx} {n : Nat} (ht : s.thr t = some ⟨.fiber f, .switch d src :: rest⟩)
    (hd : s.desc f = some ⟨x, n⟩) :
    Contexts { (s.run t x (cut n (s.susp x))).setDesc f (some ⟨.fiber f, rest.length⟩) with
      susp := Function.update s.susp (.fiber f) rest
      saved := Function.update
        (Function.update s.saved (.fiber f) (some rest.length)) x none } := by
  have hc := h.contexts
  obtain ⟨rfl, hsaved, rfl, hcut⟩ := h.switch_target ht hd
  obtain ⟨-, w, rfl⟩ := hc.shape _ _ _ ht
  rw [hcut]
  refine hc.resume ht hsaved ?_ (.call _ _ (d.frame_in _)) (fun d' src' rest' he => ?_)
    (fun fr hfr => ?_) (fun t' c' fr rest' src' ht' ha htar => ?_) rfl rfl rfl (fun g => ?_)
    (fun w => rfl) (fun w => rfl) rfl
  · cases src with
    | none => exact rfl
    | some g => exact ⟨w, rfl⟩
  · cases he
    rfl
  · cases hfr
    cases d <;> rfl
  · exact h.target_inj ht' ht ha rfl htar
  · by_cases hg : g = f
    · subst hg
      rw [if_pos rfl]
      exact Function.update_self _ _ _
    · rw [if_neg fun he => hg (by cases he; rfl)]
      exact Function.update_of_ne hg _ _

/-- What the loop of a work thread resumes: the fiber stored for the thread. -/
theorem Inv.loopSwitch_target (h : Inv s) {rest : List Frame} {x : Ctx} {n : Nat}
    (ht : s.thr t = some ⟨.loop w, .loopSwitch :: rest⟩) (hd : s.threadFiber w = some ⟨x, n⟩) :
    ∃ g, x = .fiber g ∧ s.stored w = some g ∧ rest = [] ∧ cut n (s.susp x) = [.user] := by
  obtain rfl := (h.contexts.shape_of ht).outer rfl
  obtain ⟨g, hg⟩ := Option.ne_none_iff_exists'.1
    ((h.threads.stored w).2 (.inr (.inr ⟨t, [], ht⟩)))
  have htf := h.contexts.stored w g hg
  rw [hd] at htf
  cases htf
  obtain ⟨-, -, hsusp⟩ := h.assigned_suspended hg
  refine ⟨g, rfl, hg, rfl, ?_⟩
  rw [hsusp]
  rfl

/-- `fiber_switch(&thread->thread_fiber)`, by the loop of a work thread. -/
theorem Inv.contexts_loopSwitch (h : Inv s) {rest : List Frame} {x : Ctx} {n : Nat}
    (ht : s.thr t = some ⟨.loop w, .loopSwitch :: rest⟩) (hd : s.threadFiber w = some ⟨x, n⟩) :
    Contexts { s.run t x (cut n (s.susp x)) with
      susp := Function.update s.susp (.loop w) (.loopTop :: rest)
      saved := Function.update
        (Function.update s.saved (.loop w) (some (rest.length + 1))) x none
      threadFiber := Function.update s.threadFiber w (some ⟨.loop w, rest.length + 1⟩)
      stored := Function.update s.stored w none } := by
  have hc := h.contexts
  obtain ⟨g, rfl, hg, rfl, hcut⟩ := h.loopSwitch_target ht hd
  obtain ⟨hsaved, -, -⟩ := h.assigned_suspended hg
  rw [hcut]
  have hp : g ∈ s.place (.inr (.assigned w)) := by simp [State.place, State.linked, hg]
  refine hc.resume ht hsaved ⟨w, (hc.shape _ _ _ ht).2⟩ (.outermost (.fiber g))
    (fun d' src' rest' he => by cases he) (fun fr hfr => ?_)
    (fun t' c' fr rest' src' ht' ha htar => ?_) rfl rfl rfl (fun f => rfl) (fun w' => ?_)
    (fun w' => ?_) rfl
  · cases hfr
    rfl
  · obtain rfl := target_eq_fiber htar
    have hp' := mem_place_of_held (g := g) ht' (by simp [Frame.held_of_aim ha])
    cases h.fibers.place_unique hp hp'
  · by_cases hw : w' = w
    · subst hw
      rw [if_pos rfl]
      exact Function.update_self _ _ _
    · rw [if_neg fun he => hw (by cases he; rfl)]
      exact Function.update_of_ne hw _ _
  · by_cases hw : w' = w
    · subst hw
      rw [if_pos rfl]
      exact Function.update_self _ _ _
    · rw [if_neg fun he => hw (by cases he; rfl)]
      exact Function.update_of_ne hw _ _

/-! ## What is stored for a thread, new fibers and new threads -/

/-- The `stack_top` of a suspended fiber is stored for a thread that runs its loop. -/
theorem Contexts.give (h : Contexts s) (hd : s.desc g = some ⟨.fiber g, 1⟩)
    (hw : ∀ c F, s.thr (.work w) = some ⟨c, F⟩ → c = .loop w) : Contexts (s.give g w) := by
  refine { h with loop := fun w' c F ht hc => ?_, stored := fun w' g' hs => ?_ }
  · have hne : w' ≠ w := fun he => by
      subst he
      exact hc (hw c F ht)
    rw [show (s.give g w).threadFiber w' = s.threadFiber w' from Function.update_of_ne hne _ _]
    exact h.loop w' c F ht hc
  · by_cases he : w' = w
    · subst he
      rw [show (s.give g w').stored w' = some g from Function.update_self _ _ _] at hs
      cases hs
      exact (Function.update_self _ _ _).trans hd
    · rw [show (s.give g w).stored w' = s.stored w' from Function.update_of_ne he _ _] at hs
      exact (Function.update_of_ne he _ _).trans (h.stored w' g' hs)

/-- The frame and the descriptor of the new fiber `g` are written. -/
def State.born (s : State) (g : Fid) : State :=
  { s.setDesc g (some ⟨.fiber g, 1⟩) with
    susp := Function.update s.susp (.fiber g) [.user]
    saved := Function.update s.saved (.fiber g) (some 1)
    spawned := Function.update s.spawned g true }

theorem Contexts.born (h : Contexts s) (hn : ¬ s.Runs (.fiber g))
    (ha : ∀ t c fr rest, s.thr t = some ⟨c, fr :: rest⟩ → fr.aim ≠ some (some g)) :
    Contexts (s.born g) := by
  have hne : ∀ {t c F}, s.thr t = some ⟨c, F⟩ → c ≠ .fiber g := fun {t c F} ht he =>
    hn ⟨t, F, he ▸ ht⟩
  have htar : ∀ {t c fr rest src}, s.thr t = some ⟨c, fr :: rest⟩ → fr.aim = some src →
      target t src ≠ .fiber g := fun {t c fr rest src} ht hfr he => by
    rw [target_eq_fiber he] at hfr
    exact ha t c fr rest ht hfr
  have hfg : ∀ {f}, f ≠ g → Ctx.fiber f ≠ .fiber g := fun hf he => hf (Ctx.fiber.inj he)
  have hsaved : (s.born g).saved (.fiber g) = some 1 := Function.update_self _ _ _
  have hsaved' : ∀ {c}, c ≠ .fiber g → (s.born g).saved c = s.saved c :=
    fun hc => Function.update_of_ne hc _ _
  have hsusp' : ∀ {c}, c ≠ .fiber g → (s.born g).susp c = s.susp c :=
    fun hc => Function.update_of_ne hc _ _
  have hdesc' : ∀ {f}, f ≠ g → (s.born g).desc f = s.desc f :=
    fun hf => Function.update_of_ne hf _ _
  refine { h with running := fun t c F ht => ?_, fiber := fun f n hs => ?_,
                  present := fun f hf => ?_, stack := fun c n hs => ?_,
                  aim := fun t f d src rest ht => ?_, aimed := fun t f d src rest ht => ?_ }
  · rw [hsaved' (hne ht)]
    exact h.running t c F ht
  · by_cases hf : f = g
    · subst hf
      rw [hsaved] at hs
      cases hs
      exact Function.update_self _ _ _
    · rw [hsaved' (hfg hf)] at hs
      rw [hdesc' hf]
      exact h.fiber f n hs
  · by_cases he : f = g
    · subst he
      exact .inl ⟨1, hsaved⟩
    · rw [show (s.born g).spawned f = s.spawned f from Function.update_of_ne he _ _] at hf
      rw [hsaved' (hfg he)]
      exact h.present f hf
  · by_cases hc : c = .fiber g
    · subst hc
      rw [hsaved] at hs
      cases hs
      exact ⟨rfl, .inl (Function.update_self _ _ _)⟩
    · rw [hsaved' hc] at hs
      rw [hsusp' hc]
      exact h.stack c n hs
  · have hf : f ≠ g := fun he => hne ht (congrArg Ctx.fiber he)
    have hx := htar ht rfl
    rw [hdesc' hf, hsaved' hx, hsusp' hx]
    exact h.aim t f d src rest ht
  · have hf : f ≠ g := fun he => hne ht (congrArg Ctx.fiber he)
    have hx := htar ht rfl
    rw [hdesc' hf, hsaved' hx, hsusp' hx]
    exact h.aimed t f d src rest ht

/-- A work thread is started. -/
theorem Contexts.started (h : Contexts s) (ht : s.thr (.work w) = none)
    (hst : s.stored w = none) :
    Contexts { s.run (.work w) (.loop w) [.loopTop] with
      threadFiber := Function.update s.threadFiber w none } := by
  generalize hs' : ({ s.run (.work w) (.loop w) [.loopTop] with
      threadFiber := Function.update s.threadFiber w none } : State) = s'
  have hthr : s'.thr = Function.update s.thr (.work w) (some ⟨.loop w, [.loopTop]⟩) := by
    rw [← hs']
    rfl
  have hkeep : ∀ {t'}, s.thr t' ≠ none → s'.thr t' = s.thr t' := fun {t'} hr => by
    rw [hthr]
    refine Function.update_of_ne (fun he => hr ?_) _ _
    rw [he, ht]
  have hsaved : s'.saved = s.saved := by rw [← hs']; rfl
  have hdesc : s'.desc = s.desc := by rw [← hs']; rfl
  have hsusp : s'.susp = s.susp := by rw [← hs']; rfl
  have hnew : ∀ {t' F}, s.thr t' ≠ some ⟨.loop w, F⟩ := fun {t' F} hr => by
    rw [Ctx.On.loop (h.shape t' _ F hr).2, ht] at hr
    cases hr
  refine ⟨fun t' c' G ht' => ?_, fun t' t'' c' G G' ht' ht'' => ?_, fun t' c' G ht' => ?_, ?_,
    fun g hg => ?_, fun w' c' G ht' hw => ?_, fun w' ht' => ?_, fun c' n hs => ?_,
    fun t' f d src rest ht' => ?_, fun t' f d src rest ht' => ?_, fun w' g hw => ?_⟩
  · rcases thr_update hthr ht' with ⟨rfl, hr⟩ | ⟨-, ht'⟩
    · cases hr
      exact ⟨.outermost (.loop w), rfl⟩
    · exact h.shape t' c' G ht'
  · rcases thr_update hthr ht' with ⟨rfl, hr⟩ | ⟨he, ht'⟩
    · cases hr
      rcases thr_update hthr ht'' with ⟨rfl, -⟩ | ⟨he', ht''⟩
      · rfl
      · exact absurd ht'' hnew
    · rcases thr_update hthr ht'' with ⟨rfl, hr⟩ | ⟨-, ht''⟩
      · cases hr
        exact absurd ht' hnew
      · exact h.sole t' t'' c' G G' ht' ht''
  · rw [hsaved]
    rcases thr_update hthr ht' with ⟨-, hr⟩ | ⟨-, ht'⟩
    · cases hr
      exact h.unborn w ht
    · exact h.running t' c' G ht'
  · rw [hsaved, hdesc]
    exact h.fiber
  · rw [hsaved]
    have hg' : s.spawned g = true := by
      rw [← hs'] at hg
      exact hg
    rcases h.present g hg' with hs | ⟨t', G, ht'⟩
    · exact .inl hs
    · exact .inr ⟨t', G, by rw [hkeep (by simp [ht']), ht']⟩
  · rcases thr_update hthr ht' with ⟨he, hr⟩ | ⟨he, ht'⟩
    · cases he
      cases hr
      exact absurd rfl hw
    · have htf : s'.threadFiber w' = s.threadFiber w' := by
        rw [← hs']
        exact Function.update_of_ne (fun hw' => he (congrArg Thr.work hw')) _ _
      rw [hsaved, htf]
      exact h.loop w' c' G ht' hw
  · rw [hsaved]
    exact h.unborn w' (thr_update_none hthr ht').2
  · rw [hsaved] at hs
    rw [hsusp]
    refine (h.stack c' n hs).imp id (Or.imp id ?_)
    rintro ⟨t', f, d, src, rest, ht', htar⟩
    exact ⟨t', f, d, src, rest, by rw [hkeep (by simp [ht']), ht'], htar⟩
  · rcases thr_update hthr ht' with ⟨-, hr⟩ | ⟨-, ht'⟩
    · cases hr
    · rw [hsaved, hdesc, hsusp]
      exact h.aim t' f d src rest ht'
  · rcases thr_update hthr ht' with ⟨-, hr⟩ | ⟨-, ht'⟩
    · cases hr
    · rw [hsaved, hdesc, hsusp]
      exact h.aimed t' f d src rest ht'
  · have hst' : s'.stored = s.stored := by rw [← hs']; rfl
    rw [hst'] at hw
    have hne : w' ≠ w := fun he => by
      rw [he, hst] at hw
      cases hw
    rw [← hs']
    exact (Function.update_of_ne hne _ _).trans (h.stored w' g hw)

/-! ## Every step -/

/-- A thread that is not busy waits for work. -/
theorem Inv.parked_of_post (h : Inv s) {p : Post} (hp : w ∈ s.post p) (hb : p ≠ .busy w) :
    ∃ rest, s.thr (.work w) = some ⟨.loop w, .loopPark :: rest⟩ := by
  obtain ⟨⟨c', F'⟩, hr⟩ := Option.ne_none_iff_exists'.1 (h.threads.placed.live_of_mem hp)
  have hbusy : w ∉ s.post (.busy w) := fun hm => hb (h.threads.placed.place_unique hp hm)
  rcases F' with _ | ⟨fr, rest⟩
  · exact (h.contexts.shape_of hr).ne_nil.elim
  · have hf : fr = .loopPark := by
      cases fr <;> first | rfl | simp [State.post, hr, Running.parked] at hbusy
    subst hf
    obtain ⟨hshape, hon⟩ := h.contexts.shape _ _ _ hr
    obtain ⟨w', rfl⟩ := hshape.parked
    cases hon
    exact ⟨rest, hr⟩

/-- An idle thread in the hands of a call waits for work. -/
theorem Inv.parked_of_hands (h : Inv s) (ht : s.thr t = some ⟨c, F⟩)
    (hw : w ∈ F.flatMap Frame.hands) :
    ∃ rest, s.thr (.work w) = some ⟨.loop w, .loopPark :: rest⟩ :=
  h.parked_of_post (p := .inHands t) (by simpa [State.post, ht] using hw) nofun

/-- Nothing is stored for a thread at another post than those of `Threads.stored`. -/
theorem Inv.unstored (h : Inv s) {p : Post} (hp : w ∈ s.post p) (hsem : p ≠ .signalled w)
    (hsig : ∀ t c k rest, p = .inHands t → s.thr t ≠ some ⟨c, .signal w k :: rest⟩)
    (hsw : ∀ rest, s.thr (.work w) ≠ some ⟨.loop w, .loopSwitch :: rest⟩) : s.stored w = none := by
  have hpl := h.threads.placed
  by_contra hne
  rcases (h.threads.stored w).1 hne with ⟨t, c, k, rest, ht⟩ | hs | ⟨t, rest, ht⟩
  · have hp' : w ∈ s.post (.inHands t) := by simp [State.post, ht, Frame.hands]
    exact hsig t c k rest (hpl.place_unique hp hp') ht
  · have hp' : w ∈ s.post (.signalled w) := by
      exact List.mem_replicate.2 ⟨Nat.ne_of_gt hs, rfl⟩
    exact hsem (hpl.place_unique hp hp')
  · have htw := Ctx.On.loop (h.contexts.shape _ _ _ ht).2
    exact hsw rest (htw ▸ ht)

/-- Nothing is stored for a thread that was not started. -/
theorem Inv.stored_unstarted (h : Inv s) (hw : s.thr (.work w) = none) : s.stored w = none := by
  have hpl := h.threads.placed
  by_contra hne
  rcases (h.threads.stored w).1 hne with ⟨t, c, k, rest, ht⟩ | hs | ⟨t, rest, ht⟩
  · obtain ⟨rest', hr⟩ := h.parked_of_hands ht (w := w) (by simp [Frame.hands])
    rw [hw] at hr
    cases hr
  · exact hpl.live_of_mem (p := .signalled w) (by simp [State.post]; omega) hw
  · rw [Ctx.On.loop (h.contexts.shape _ _ _ ht).2, hw] at ht
    cases ht

theorem Quiet.shape (hq : Quiet s c F F') (h : Shape c F) : Shape c F' := by
  cases hq with
  | object o op =>
    refine h.enter ?_
    cases op <;> exact ⟨_, rfl⟩
  | spawn | sleep => exact h.enter ⟨_, rfl⟩
  | yield | exit => exact h.enter ⟨_, rfl, rfl, fun _ he => by cases he⟩
  | channelClosed | sleepLate | listDone | pairDone => exact h.pop rfl
  | channelOpen => exact h.next rfl id
  | sleepEarly => exact h.next rfl fun _ => ⟨_, rfl, rfl, fun _ he => by cases he⟩
  | pairBack | pairMore | pairNext => exact h.next rfl fun _ => trivial

theorem Quiet.plain (hq : Quiet s c F F') (h : Shape c F) :
    (∀ fr ∈ F.head?, fr.plain = true) ∧ ∀ fr ∈ F'.head?, fr.plain = true := by
  cases hq with
  | object o op => exact ⟨head_cons rfl, head_cons (by cases op <;> rfl)⟩
  | channelClosed | sleepLate | listDone | pairDone =>
    obtain ⟨rfl, -⟩ := h.inner rfl
    exact ⟨head_cons rfl, head_cons (base_plain c)⟩
  | spawn | yield | exit | sleep | channelOpen | sleepEarly | pairBack | pairMore | pairNext =>
    exact ⟨head_cons rfl, head_cons rfl⟩

theorem Frame.copy_in {d : Deferred} (src : Option Fid) (h : (Frame.getAvailable d).In c) :
    (Frame.copy src d).In c := by
  obtain ⟨f, hf, hd, -⟩ := h
  exact ⟨f, hf, hd⟩

theorem Frame.aim_of_plain {fr : Frame} (h : fr.plain = true) : fr.aim = none := by
  cases fr <;> first | rfl | cases h

/-- **Every step keeps `Contexts`.** -/
theorem Inv.contexts_step (h : Inv s) (hs : Step s s') : Contexts s' := by
  have hc := h.contexts
  -- a call returns
  have hpop : ∀ {t c fr rest} {s' : State}, s.thr t = some ⟨c, fr :: rest⟩ →
      s'.thr = Function.update s.thr t (some ⟨c, rest⟩) → s'.memory = s.memory →
      fr.inner = true → fr.aim = none → Contexts s' := fun {t c fr rest s'} ht hthr hm hfr ha => by
    have hshape := hc.shape_of ht
    obtain ⟨rfl, -⟩ := hshape.inner hfr
    exact hc.calm ht hthr hm (hshape.pop hfr) (head_cons ha) aim_base
  -- a call goes on
  have hnext : ∀ {t c fr fr' rest} {s' : State}, s.thr t = some ⟨c, fr :: rest⟩ →
      s'.thr = Function.update s.thr t (some ⟨c, fr' :: rest⟩) → s'.memory = s.memory →
      fr.inner = true → (fr.In c → fr'.In c) → fr.aim = none → fr'.aim = none → Contexts s' :=
    fun {t c fr fr' rest s'} ht hthr hm hfr hin ha ha' =>
      hc.calm ht hthr hm ((hc.shape_of ht).next hfr hin) (head_cons ha) (head_cons ha')
  cases hs with
  | quiet ht hq =>
    obtain ⟨hF, hF'⟩ := hq.plain (hc.shape_of ht)
    exact hc.calm ht rfl rfl (hq.shape (hc.shape_of ht))
      (fun fr hfr => Frame.aim_of_plain (hF fr hfr)) fun fr hfr => Frame.aim_of_plain (hF' fr hfr)
  | acquire L ht hw hl => exact { hc with }
  | start w ht => exact hc.started ht (h.stored_unstarted ht)
  | @yieldEmpty w f g rest ht hl hq =>
    obtain ⟨rfl, -⟩ := (hc.shape_of ht).inner rfl
    have hr : Contexts ((s.run (.work w) (.fiber f) [base (.fiber f)]).release .queue) :=
      hpop ht rfl rfl rfl rfl
    exact hr.setDesc (Function.update_self _ _ _) aim_base _
  | availEmpty ht hl hq hd => exact hnext ht rfl rfl rfl (Frame.copy_in none) rfl rfl
  | availPop ht hl hq => exact hnext ht rfl rfl rfl (Frame.copy_in _) rfl rfl
  | @copyFiber t f g d rest ht =>
    obtain ⟨hsaved, hdesc, hsusp⟩ := h.held_suspended (g := g) ht (by simp [Frame.held])
      fun d src rest he => by cases he
    have ht' : (s.setDesc f (s.desc g)).thr t = some ⟨.fiber f, .copy (some g) d :: rest⟩ := ht
    refine (hc.setDesc ht (head_cons rfl) _).frames ht' rfl rfl ((hc.shape_of ht).next rfl id)
      (fun d src rest he => by cases he) (fun f' d' src rest' hf he => ?_) fun d src rest he => by
        cases he
    cases hf
    cases he
    exact ⟨(Function.update_self _ _ _).trans hdesc, hsaved, hsusp⟩
  | @copyThread w f d rest ht =>
    obtain ⟨hsaved, htf⟩ := hc.loop w _ _ ht (by simp)
    have hsusp : s.susp (.loop w) = [.loopTop] := by
      refine (hc.stack _ _ hsaved).2.resolve_right ?_
      rintro ⟨t', f', d', src, rest', ht', htar⟩
      rw [(target_eq_loop htar).2, ht] at ht'
      cases ht'
    have ht' : (s.setDesc f (s.threadFiber w)).thr (.work w) =
        some ⟨.fiber f, .copy none d :: rest⟩ := ht
    refine (hc.setDesc ht (head_cons rfl) _).frames ht' rfl rfl ((hc.shape_of ht).next rfl id)
      (fun d src rest he => by cases he) (fun f' d' src rest' hf he => ?_) fun d src rest he => by
        cases he
    cases hf
    cases he
    exact ⟨(Function.update_self _ _ _).trans htf, hsaved, hsusp⟩
  | push ht hd => exact h.contexts_push ht hd
  | switch ht hd => exact h.contexts_switch ht hd
  | enqueueIdle ht hl hi => exact hnext ht rfl rfl rfl (fun _ => trivial) rfl rfl
  | enqueueTail ht hl hi => exact hpop ht rfl rfl rfl rfl
  | @store t c g w k rest ht =>
    obtain ⟨-, hdesc, -⟩ := h.held_suspended (g := g) ht (by simp [Frame.held])
      fun d src rest he => by cases he
    obtain ⟨rest', hr⟩ := h.parked_of_hands (w := w) ht (by simp [Frame.hands])
    have ht' : (s.give g w).thr t = some ⟨c, .store g w k :: rest⟩ := ht
    refine (hc.give hdesc fun c F hw => ?_).calm ht' rfl rfl
      ((hc.shape_of ht).next rfl fun _ => trivial) (head_cons rfl) (head_cons rfl)
    rw [hr] at hw
    cases hw
    rfl
  | signal ht => exact hpop ht rfl rfl rfl rfl
  | signalNext ht => exact hnext ht rfl rfl rfl (fun _ => trivial) rfl rfl
  | listTail ht hl hi => exact hpop ht rfl rfl rfl rfl
  | listTake ht hl hi => exact hnext ht rfl rfl rfl (fun _ => trivial) rfl rfl
  | backIdle ht hl hq => exact hpop ht rfl rfl rfl rfl
  | backSteal ht hl hq => exact hnext ht rfl rfl rfl (fun _ => trivial) rfl rfl
  | @loopIdle t w rest ht hl hq =>
    obtain rfl := (hc.shape_of ht).outer rfl
    exact hc.calm ht rfl rfl (.park w) (head_cons rfl) (head_cons rfl)
  | @loopPop t w g l rest ht hl hq =>
    obtain rfl := (hc.shape_of ht).outer rfl
    exact hc.calm ht rfl rfl (.copy w g) (head_cons rfl) (head_cons rfl)
  | @loopWake t w n rest ht hn =>
    obtain rfl := (hc.shape_of ht).outer rfl
    exact hc.calm ht rfl rfl (.switch w) (head_cons rfl) (head_cons rfl)
  | @loopCopy t w g rest ht =>
    obtain ⟨-, hdesc, -⟩ := h.held_suspended (g := g) ht (by simp [Frame.held])
      fun d src rest he => by cases he
    obtain ⟨hshape, rfl⟩ := hc.shape _ _ _ ht
    obtain rfl := hshape.outer rfl
    have ht' : (s.give g w).thr (.work w) = some ⟨.loop w, [.loopCopy g]⟩ := ht
    refine (hc.give hdesc fun c F hw => ?_).calm ht' rfl rfl (.switch w) (head_cons rfl)
      (head_cons rfl)
    rw [ht] at hw
    cases hw
    rfl
  | loopSwitch ht hd => exact h.contexts_loopSwitch ht hd
  | unlock ht => exact hpop ht rfl rfl rfl rfl
  | recycle ht hl => exact hpop ht rfl rfl rfl rfl
  | timerAdd ht hl => exact hpop ht rfl rfl rfl rfl
  | timerWait ht hl => exact { hc with }
  | expire cur ht hl hcur =>
    obtain rfl := (hc.shape_of ht).outer rfl
    exact hc.calm ht rfl rfl (.call .timer _ trivial) (head_cons rfl) (head_cons rfl)
  | @object t f o op rest ht hl =>
    obtain ⟨rfl, -⟩ := (hc.shape_of ht).inner rfl
    cases ((s.obj o).critical op f).2 with
    | ret => exact hpop ht rfl rfl rfl rfl
    | block => exact hnext ht rfl rfl rfl (fun _ => ⟨f, rfl, trivial⟩) rfl rfl
    | wake g => exact hnext ht rfl rfl rfl (fun _ => trivial) rfl rfl
    | transfer g => exact hnext ht rfl rfl rfl (fun _ => ⟨f, rfl, rfl⟩) rfl rfl
    | drain gs => exact hnext ht rfl rfl rfl (fun _ => trivial) rfl rfl
  | spawnPop ht hl hq => exact hnext ht rfl rfl rfl id rfl rfl
  | spawnEmpty ht hl hq => exact hnext ht rfl rfl rfl id rfl rfl
  | queryMemory ht => exact hnext ht rfl rfl rfl id rfl rfl
  | @spawnNew t c rest g ht hg =>
    have hno : ∀ p, g ∉ s.place p := fun p hp => by
      have hl := (h.fibers.live_of_mem hp).1
      rw [hg] at hl
      cases hl
    have hn : ¬ s.Runs (.fiber g) := by
      rintro ⟨t', F', ht'⟩
      rcases h.place_of_runs ht' with ⟨-, hp⟩ | ⟨o, hp, -⟩
      · exact hno _ hp
      · exact hno _ hp
    have hb := hc.born hn fun t' c' fr rest ht' ha =>
      hno _ (mem_place_of_held ht' (by simp [Frame.held_of_aim ha]))
    have ht' : (s.born g).thr t = some ⟨c, .spawnNew :: rest⟩ := ht
    exact hb.calm ht' rfl rfl ((hc.shape_of ht).next rfl fun _ => trivial) (head_cons rfl)
      (head_cons rfl)

end Sched
