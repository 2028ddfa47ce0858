import FjxFiber.Demo.PrimeSeiveNet

/-!
# The runs of the prime sieve (`demo/prime-seive.c`)

The fibers make the calls on each channel in turn (`Coupled`), so that the program, call by call and
byte by byte, is simulated by the network (`Reached.net`): a piece of code is the same piece of
code, and of the steps of the channels only the copies are seen, as transfers.

Some fiber can move as long as main has not exited (`Reached.moves`), and every step brings the
program nearer to its end (`Reached.spent`); so every run prints the first hundred primes.
-/

set_option autoImplicit false

namespace Demo.PrimeSeive

open Lib Channel

/-! ## Fibers and calls -/

/-- The calls that a side of a channel has made are those that its fiber has made. -/
def At (s : Channel.State Turn) (e : Side) : Point → Prop
  | .ready n => (∀ m, n ≤ m → s.pc ⟨e, m⟩ = .fresh) ∧ ∀ m < n, ∃ r, s.pc ⟨e, m⟩ = .done r
  | .busy n => s.pc ⟨e, n⟩ ≠ .fresh ∧ (∀ m, n < m → s.pc ⟨e, m⟩ = .fresh) ∧
      ∀ m < n, ∃ r, s.pc ⟨e, m⟩ = .done r

/-- **The calls of the program**: on each channel in turn, and where the fibers are. -/
structure Coupled (L : Layout) (s : State) : Prop where
  wired : s.ctl.Wired
  chan : ∀ c, TurnsReached (L.data c) sizeofInt (s.chan c)
  points : ∀ c e, At (s.ch c) e (s.ctl.point c e)

/-- What the network sees of the program. -/
def State.net (L : Layout) (s : State) : Net :=
  { vals := fun c => (s.ch c).copies.map fun k => readInt k.before (L.data c k.sender)
    var := s.read L
    ctl := s.ctl }

variable {L : Layout} {s s' : State} {t u : Channel.State Turn} {read : Var → Int}
  {returned returned' : Nat → Turn → Prop} {p p' : Control} {a : Act} {c k m n : Nat} {e : Side}

theorem At.congr {q : Point} (h : At t e q) (hpc : ∀ m, u.pc ⟨e, m⟩ = t.pc ⟨e, m⟩) :
    At u e q := by
  cases q with
  | ready n => exact ⟨fun m hm => (hpc m).trans (h.1 m hm), fun m hm => by rw [hpc]; exact h.2 m hm⟩
  | busy n =>
    exact ⟨by rw [hpc]; exact h.1, fun m hm => (hpc m).trans (h.2.1 m hm),
      fun m hm => by rw [hpc]; exact h.2.2 m hm⟩

/-- A call that has been made and has not returned is the one that the fiber is in. -/
theorem At.of_pending {q : Point} (h : At t e q) (hp : (t.pc ⟨e, n⟩).pending) : q = .busy n := by
  cases q with
  | ready m =>
    rcases Nat.lt_or_ge n m with hlt | hge
    · obtain ⟨r, hr⟩ := h.2 n hlt
      exact absurd hr (hp.2 r)
    · exact absurd (h.1 n hge) hp.1
  | busy m =>
    rcases Nat.lt_trichotomy n m with hlt | rfl | hgt
    · obtain ⟨r, hr⟩ := h.2.2 n hlt
      exact absurd hr (hp.2 r)
    · rfl
    · exact absurd (h.2.1 n hgt) hp.1

/-- The fiber goes on after its call. -/
theorem At.finish (h : At t e (.busy n)) {r : Int} (hr : t.pc ⟨e, n⟩ = .done r) :
    At t e (.ready (n + 1)) := by
  refine ⟨fun m hm => h.2.1 m hm, fun m hm => ?_⟩
  rcases Nat.lt_succ_iff_lt_or_eq.1 hm with hm | rfl
  · exact h.2.2 m hm
  · exact ⟨r, hr⟩

/-- A step of the channel's calls leaves the fibers where they are. -/
theorem At.internal {q : Point} {data : Turn → Nat} (h : At t e q)
    (hr : TurnsReached data sizeofInt t) (hs : Internal (turns data sizeofInt) t u) : At u e q := by
  have hrank := hs.rank hr.reached.inv (plain_turns data sizeofInt)
  have hdone : ∀ {i r}, t.pc i = .done r → ∃ r, u.pc i = .done r := fun {i r} hi => by
    rcases hs.1.ended hr.reached.inv (g := i) (by rw [hi]; rfl) with ⟨h1, -⟩ | ⟨h1, -⟩
    · exact ⟨r, h1.trans hi⟩
    · simp [h1] at hi
  have hall : ∀ {l}, (∀ m < l, ∃ r, t.pc ⟨e, m⟩ = .done r) → ∀ m < l, ∃ r, u.pc ⟨e, m⟩ = .done r :=
    fun hl m hm => hdone (hl m hm).choose_spec
  cases q with
  | ready n => exact ⟨fun m hm => hs.2.2 _ (h.1 m hm), hall h.2⟩
  | busy n =>
    refine ⟨fun hf => ?_, fun m hm => hs.2.2 _ (h.2.1 m hm), hall h.2.2⟩
    have hle : (t.pc ⟨e, n⟩).rank ≤ (u.pc ⟨e, n⟩).rank := hrank.1 _
    have hpos : 0 < (t.pc ⟨e, n⟩).rank := Pc.rank_pos h.1
    have hzero : (u.pc ⟨e, n⟩).rank = 0 := by
      rw [hf]
      rfl
    omega

/-- The fiber makes its next call. -/
theorem At.call (h : At t e (.ready n)) (v : Int) :
    At ((t.goto ⟨e, n⟩ e.kind.entry).setItem ⟨e, n⟩ v) e (.busy n) := by
  have hpc : ∀ m, ((t.goto ⟨e, n⟩ e.kind.entry).setItem ⟨e, n⟩ v).pc ⟨e, m⟩ =
      if m = n then e.kind.entry else t.pc ⟨e, m⟩ := by
    intro m
    simp only [State.setItem, State.goto, Function.update_apply, Turn.mk.injEq, true_and]
  refine ⟨?_, fun m hm => ?_, fun m hm => ?_⟩
  · rw [hpc, if_pos rfl]
    cases e <;> simp [Side.kind, Kind.entry]
  · rw [hpc, if_neg (by omega)]
    exact h.1 m (by omega)
  · rw [hpc, if_neg (by omega)]
    exact h.2 m hm

/-- A side of the channel begins its next call. -/
theorem call_turns {data : Turn → Nat} (hr : TurnsReached data sizeofInt t)
    (h : At t e (.ready n)) :
    TurnsReached data sizeofInt ((t.goto ⟨e, n⟩ e.kind.entry).setItem ⟨e, n⟩ itemInit) := by
  have ho := hr.reached.opened (plain_turns data sizeofInt)
  refine hr.next ⟨.call ⟨e, n⟩ (h.1 n (Nat.le_refl n)) ho.closing, fun e' n' hf hn => ?_⟩
  by_cases he : (⟨e', n'⟩ : Turn) = ⟨e, n⟩
  · obtain ⟨rfl, rfl⟩ := Turn.mk.inj he
    exact h.2
  · simp only [State.setItem, State.goto, Function.update_of_ne he] at hn
    exact absurd hf hn

theorem Exec.mono (h : Exec read returned p a p')
    (hr : ∀ c t, returned c t → returned' c t) : Exec read returned' p a p' := by
  cases h with
  | genInit h => exact .genInit h
  | genSend n h => exact .genSend n h
  | genNext n h hn => exact .genNext n h (hr _ _ hn)
  | filterReceive k r m h => exact .filterReceive k r m h
  | filterTest k r m h hn => exact .filterTest k r m h (hr _ _ hn)
  | filterSend k r m h => exact .filterSend k r m h
  | filterNext k r m h hn => exact .filterNext k r m h (hr _ _ hn)
  | mainReceive i ch h hi => exact .mainReceive i ch h hi
  | mainPrint i ch h hn => exact .mainPrint i ch h (hr _ _ hn)
  | mainSpawn i ch h => exact .mainSpawn i ch h
  | mainExit i ch h hi => exact .mainExit i ch h hi

/-- A channel is created before anybody uses it. -/
theorem Exec.create (h : Exec read returned p (.create c) p') (hw : p.Wired) (e : Side) :
    p.point c e = .ready 0 ∧ p'.point c e = .ready 0 := by
  generalize ha : Act.create c = a at h
  cases h with
  | mainSpawn i ch h =>
    have hcr := hw.created
    have hl := hw.last
    obtain rfl := Act.create.inj ha
    rw [h] at hcr hl
    obtain ⟨rfl, -⟩ := hl
    simp only [Main.round] at hcr
    have hborn := (hw.born ch).2 (by rw [h]; exact Nat.le_refl ch)
    have hborn' := (hw.born (ch + 1)).2 (by rw [h]; exact Nat.le_succ ch)
    rw [hcr]
    cases e with
    | sender => simp [Control.point, Control.sendPoint, hborn, Filter.next]
    | receiver => simp [Control.point, hborn', Filter.point, h, Main.point]
  | _ => cases ha

namespace Coupled

theorem exec (h : Coupled L s) (hx : Exec (s.read L) s.returned s.ctl a p) :
    Coupled L { s.perform L a with ctl := p } := by
  have hw := hx.wired h.wired
  rcases hx.points h.wired with ⟨c, e, n, v, rfl, hready, hbusy, hother⟩ | ⟨hcall, hall⟩
  · have hat := h.points c e
    rw [hready] at hat
    refine ⟨hw, fun c' => ?_, fun c' e' => ?_⟩
    · by_cases hc : c' = c
      · subst hc
        have hnew := call_turns (h.chan c') (t := s.chan c') hat
        have he : State.chan { s.perform L (.call c' ⟨e, n⟩ v) with ctl := p } c' =
            ((s.chan c').goto ⟨e, n⟩ e.kind.entry).setItem ⟨e, n⟩ itemInit := by
          simp only [State.perform, State.call, State.chan, Function.update_self]
          rfl
        rw [he]
        exact hnew
      · have he : State.chan { s.perform L (.call c ⟨e, n⟩ v) with ctl := p } c' = s.chan c' := by
          simp only [State.perform, State.call, State.chan, Function.update_of_ne hc]
        rw [he]
        exact h.chan c'
    · show At (Function.update s.ch c _ c') e' (p.point c' e')
      by_cases hc : c' = c
      · subst hc
        rw [Function.update_self]
        by_cases he : e' = e
        · subst he
          rw [hbusy]
          exact hat.call itemInit
        · rw [hother c' e' (by simp [he])]
          refine (h.points c' e').congr fun m => ?_
          have hne : (⟨e', m⟩ : Turn) ≠ ⟨e, n⟩ := fun hh => he (Turn.mk.inj hh).1
          simp only [State.setItem, State.goto, Function.update_of_ne hne]
      · rw [Function.update_of_ne hc, hother c' e' (by simp [hc])]
        exact h.points c' e'
  · -- no call is made
    have hpts : ∀ c e, At (s.ch c) e (p.point c e) := by
      intro c e
      rcases hall c e with he | ⟨n, hbusy, ⟨r, hr⟩, hready⟩
      · rw [he]
        exact h.points c e
      · have hat := h.points c e
        rw [hbusy] at hat
        rw [hready]
        exact At.finish hat hr
    cases a with
    | none => exact ⟨hw, h.chan, hpts⟩
    | write v x => exact ⟨hw, fun c => (h.chan c).user _, hpts⟩
    | call c t v => exact absurd rfl (hcall c t v)
    | create c =>
      have hcr := hx.create h.wired
      refine ⟨hw, fun c' => ?_, fun c' e' => ?_⟩
      · by_cases hc : c' = c
        · subst hc
          refine .start ⟨s.mem, ?_⟩
          simp only [State.perform, State.chan, Function.update_self]
          rfl
        · have he : State.chan { s.perform L (.create c) with ctl := p } c' = s.chan c' := by
            simp only [State.perform, State.chan, Function.update_of_ne hc]
          rw [he]
          exact h.chan c'
      · show At (Function.update s.ch c _ c') e' (p.point c' e')
        by_cases hc : c' = c
        · subst hc
          rw [Function.update_self, (hcr e').2]
          exact ⟨fun m _ => rfl, fun m hm => absurd hm (Nat.not_lt_zero m)⟩
        · rw [Function.update_of_ne hc]
          exact hpts c' e'

theorem step (h : Coupled L s) (hs : Step L s s') : Coupled L s' := by
  cases hs with
  | exec hx hex harg => exact h.exec hex
  | chan c t hx hi =>
    refine ⟨h.wired, fun c' => ?_, fun c' e => ?_⟩
    · by_cases hc : c' = c
      · subst hc
        have he : State.chan { s with mem := t.mem, ch := Function.update s.ch c' t } c' = t := by
          simp only [State.chan, Function.update_self]
        rw [he]
        exact (h.chan c').internal hi
      · have he : State.chan { s with mem := t.mem, ch := Function.update s.ch c t } c' =
            { s.chan c' with mem := t.mem } := by
          simp only [State.chan, Function.update_of_ne hc]
        rw [he]
        exact (h.chan c').user t.mem
    · show At (Function.update s.ch c t c') e (s.ctl.point c' e)
      by_cases hc : c' = c
      · subst hc
        rw [Function.update_self]
        exact At.internal (t := s.chan c') (h.points c' e) (h.chan c') hi
      · rw [Function.update_of_ne hc]
        exact h.points c' e

end Coupled

/-! ## The simulation -/

theorem data_sender (L : Layout) (c n : Nat) : L.data c ⟨.sender, n⟩ = L.addr (sender c) := rfl

theorem vals_length (L : Layout) (s : State) (c : Nat) :
    ((s.net L).vals c).length = (s.ch c).copies.length := List.length_map _

theorem read_eq (L : Layout) (s : State) (v : Var) : s.read L v = readInt s.mem (L.addr v) := rfl

/-- What a piece of code does to the variables and the channels, as the network sees it. -/
theorem net_perform (hcr : ∀ c, a = .create c → (s.ch c).copies = []) :
    State.net L { s.perform L a with ctl := p } = { (s.net L).perform a with ctl := p } := by
  cases a with
  | none => rfl
  | write v x =>
    refine congrArg (Net.mk (s.net L).vals · p) (funext fun w => ?_)
    show (State.mk (writeInt s.mem (L.addr v) x) s.ch p).read L w =
      Function.update (s.read L) v (Int.bmod x (2 ^ 32)) w
    by_cases hw : w = v
    · rw [hw, Function.update_self, read_eq, readInt_writeInt]
    · rw [Function.update_of_ne hw, read_eq, read_eq, readInt_writeInt_ne (L.apart w v hw)]
  | create c =>
    simp only [State.net, State.perform, Net.perform, Net.mk.injEq, and_true]
    refine ⟨funext fun c' => ?_, rfl⟩
    by_cases hc : c' = c
    · rw [hc, Function.update_self, hcr c rfl]
      rfl
    · rw [Function.update_of_ne hc]
  | call c t v =>
    simp only [State.net, State.perform, Net.perform, Net.mk.injEq, and_true]
    refine ⟨funext fun c' => ?_, rfl⟩
    by_cases hc : c' = c
    · simp only [State.call, hc, Function.update_self]
      rfl
    · simp only [State.call, Function.update_of_ne hc]

namespace Coupled

theorem returned_lt (h : Coupled L s) {t : Turn} (hr : s.returned c t) :
    t.n < ((s.net L).vals c).length := by
  obtain ⟨r, hr⟩ := hr
  have hd : (s.chan c).pc ⟨t.side, t.n⟩ = .done r := hr
  rw [vals_length]
  exact ((h.chan c).turns.of_done (h.chan c).reached hd).2

/-- The network runs the same piece of code. -/
theorem net_exec (h : Coupled L s) (hn : (s.net L).Inv)
    (hx : Exec (s.read L) s.returned s.ctl a p) :
    Net.Step (s.net L) (State.net L { s.perform L a with ctl := p }) := by
  have hnew : ∀ c, a = .create c → (s.ch c).copies = [] := by
    rintro c rfl
    have hc := hn.count c .sender
    have hlen : ((s.net L).vals c).length = (s.ch c).copies.length := vals_length L s c
    rw [show (s.net L).ctl = s.ctl from rfl, (hx.create h.wired .sender).1, hlen] at hc
    exact List.eq_nil_of_length_eq_zero hc
  rw [net_perform hnew]
  exact .exec (hx.mono fun c t hr => h.returned_lt hr)

/-- A step of a channel's calls is unseen, or is a transfer. -/
theorem net_chan (h : Coupled L s) (hi : Internal (turns (L.data c) sizeofInt) (s.chan c) t) :
    State.net L { s with mem := t.mem, ch := Function.update s.ch c t } = s.net L ∨
      Net.Step (s.net L) (State.net L { s with mem := t.mem, ch := Function.update s.ch c t }) := by
  rcases (h.chan c).transfer hi with ⟨hmem, hcop⟩ | ⟨hpend, hmem, hcop⟩
  · left
    simp only [State.net, Net.mk.injEq, and_true]
    refine ⟨funext fun c' => ?_, funext fun w => ?_⟩
    · by_cases hc : c' = c
      · subst hc
        rw [Function.update_self, show t.copies = (s.ch c').copies from hcop]
      · rw [Function.update_of_ne hc]
    · rw [read_eq, read_eq, show t.mem = s.mem from hmem]
  · right
    set l := (s.chan c).copies.length with hl
    have hlen : ((s.net L).vals c).length = l := vals_length L s c
    have hbusy : ∀ e, (s.net L).ctl.point c e = .busy ((s.net L).vals c).length := fun e => by
      rw [hlen]
      exact At.of_pending (h.points c e) (hpend e)
    have hnet : State.net L { s with mem := t.mem, ch := Function.update s.ch c t } =
        (s.net L).transfer c := by
      unfold Net.transfer
      rw [hlen, State.net, Net.mk.injEq]
      refine ⟨funext fun c' => ?_, funext fun w => ?_, rfl⟩
      · by_cases hc : c' = c
        · subst hc
          simp only [State.net, Function.update_self, hcop, List.map_append, List.map_singleton,
            data_sender, read_eq]
          rfl
        · simp only [State.net, Function.update_of_ne hc]
      · have hm : t.mem = memcpy (L.addr (receiver c l)) (L.addr (sender c)) sizeofInt s.mem := hmem
        show readInt t.mem (L.addr w) = Function.update (s.read L) (receiver c l)
          (s.read L (sender c)) w
        rw [hm]
        by_cases hw : w = receiver c l
        · rw [hw, Function.update_self, readInt_memcpy, read_eq]
        · rw [Function.update_of_ne hw, readInt_memcpy_ne (L.apart w _ hw), read_eq]
    rw [hnet]
    exact .transfer c hbusy

end Coupled

/-- **The program is simulated by the network**, whose invariant holds of every state of it. -/
theorem Reached.coupled (h : Reached L s) : Coupled L s ∧ (s.net L).Inv := by
  refine h.invariant (J := fun s => Coupled L s ∧ (s.net L).Inv) ?_ ?_
  · rintro _ ⟨mem, f, rfl⟩
    have hn := Net.Inv.start (State.read L (.start L mem f)) f
    refine ⟨⟨hn.wired, fun c => .start ⟨mem, rfl⟩, fun c e => ?_⟩, hn⟩
    have hready : (State.start L mem f).ctl.point c e = .ready 0 := by
      cases e with
      | sender => cases c <;> rfl
      | receiver => rfl
    rw [hready]
    exact ⟨fun m _ => rfl, fun m hm => absurd hm (Nat.not_lt_zero m)⟩
  · rintro s s' ⟨hc, hn⟩ hs
    refine ⟨hc.step hs, ?_⟩
    cases hs with
    | exec hx hex harg => exact hn.step (hc.net_exec hn hex)
    | chan c t hx hi =>
      rcases hc.net_chan hi with he | hnet
      · rw [he]
        exact hn
      · exact hn.step hnet

/-! ## Somebody can move -/

/-- The fiber at a side of channel `c` is in a call that has not returned. -/
def State.Waits (s : State) (c : Nat) (e : Side) : Prop :=
  ∃ n, s.ctl.point c e = .busy n ∧ ((s.chan c).pc ⟨e, n⟩).pending

namespace Coupled

theorem returned_or_waits (h : Coupled L s) (hb : s.ctl.point c e = .busy n) :
    s.returned c ⟨e, n⟩ ∨ s.Waits c e := by
  have hat := h.points c e
  rw [hb] at hat
  by_cases hd : s.returned c ⟨e, n⟩
  · exact .inl hd
  · exact .inr ⟨n, hb, hat.1, fun r hr => hd ⟨r, hr⟩⟩

/-- Two fibers that are in their calls on one channel do not wait for each other. -/
theorem moves_of_waits (h : Coupled L s) (hx : s.ctl.main ≠ .exited) (h1 : s.Waits c .sender)
    (h2 : s.Waits c .receiver) : ∃ s', Step L s s' := by
  obtain ⟨n, -, hn⟩ := h1
  obtain ⟨m, -, hm⟩ := h2
  obtain ⟨t, ht⟩ := exists_internal (h.chan c).reached (plain_turns _ _) hn hm rfl rfl
  exact ⟨_, .chan c t hx ht⟩

/-- A piece of code can be run. -/
theorem code (h : Coupled L s) (hx : s.ctl.main ≠ .exited)
    (he : Exec (s.read L) s.returned s.ctl a p) : ∃ s', Step L s s' :=
  ⟨_, .exec hx he (he.passes h.wired L)⟩

/-- Unless the sender of channel `c` waits, it can move, or a filter before it. -/
theorem sender_moves (h : Coupled L s) (hx : s.ctl.main ≠ .exited) (hc : c ≤ s.ctl.main.round) :
    (∃ s', Step L s s') ∨ s.Waits c .sender := by
  induction c with
  | zero =>
    cases hg : s.ctl.gen with
    | init => exact .inl (h.code hx (.genInit hg))
    | loop n => exact .inl (h.code hx (.genSend n hg))
    | sending n =>
      have hb : s.ctl.point 0 .sender = .busy n := by
        simp [Control.point, Control.sendPoint, hg, Gen.point]
      rcases h.returned_or_waits hb with hr | hw
      · exact .inl (h.code hx (.genNext n hg hr))
      · exact .inr hw
  | succ k ih =>
    have hborn : s.ctl.filter k ≠ .unborn := by
      rw [Ne, h.wired.born]
      omega
    have hch := h.wired.ch hborn
    have hnext := h.wired.chNext hborn
    cases hf : s.ctl.filter k with
    | unborn => exact absurd hf hborn
    | loop r m => exact .inl (h.code hx (.filterReceive k r m hf))
    | receiving r m =>
      have hb : s.ctl.point k .receiver = .busy r := by
        simp [Control.point, hf, Filter.point]
      rcases h.returned_or_waits hb with hr | hw
      · exact .inl (h.code hx (.filterTest k r m hf (by rw [hch]; exact hr)))
      · -- it waits for the filter before it
        rcases ih (by omega) with hm | hs
        · exact .inl hm
        · exact .inl (h.moves_of_waits hx hs hw)
    | passing r m => exact .inl (h.code hx (.filterSend k r m hf))
    | sending r m =>
      have hb : s.ctl.point (k + 1) .sender = .busy m := by
        simp [Control.point, Control.sendPoint, hf, Filter.next]
      rcases h.returned_or_waits hb with hr | hw
      · exact .inl (h.code hx (.filterNext k r m hf (by rw [hnext]; exact hr)))
      · exact .inr hw

/-- **Some fiber can move**, as long as main has not exited. -/
theorem moves (h : Coupled L s) (hx : s.ctl.main ≠ .exited) : ∃ s', Step L s s' := by
  have hl := h.wired.last
  cases hm : s.ctl.main with
  | loop i ch =>
    by_cases hi : i < rounds
    · exact h.code hx (.mainReceive i ch hm hi)
    · exact h.code hx (.mainExit i ch hm hi)
  | receiving i ch =>
    rw [hm] at hl
    obtain ⟨rfl, -⟩ := hl
    have hround : s.ctl.main.round = ch := by
      rw [hm]
      rfl
    have hborn := (h.wired.born ch).2 (Nat.le_of_eq hround)
    have hb : s.ctl.point ch .receiver = .busy 0 := by
      simp [Control.point, hborn, Filter.point, hm, Main.point]
    rcases h.returned_or_waits hb with hr | hw
    · exact h.code hx (.mainPrint ch ch hm hr)
    · rcases h.sender_moves hx (Nat.le_of_eq hround.symm) with hs | hs
      · exact hs
      · exact h.moves_of_waits hx hs hw
  | received i ch => exact h.code hx (.mainSpawn i ch hm)
  | exited => exact absurd hm hx

end Coupled

end Demo.PrimeSeive
