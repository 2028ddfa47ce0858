import FjxFiber.Demo.PrimeSeiveRun
import Mathlib.Algebra.Order.BigOperators.Group.Finset

/-!
# The prime sieve prints the first hundred primes (`demo/prime-seive.c`)

Every step brings the program nearer to its end (`Step.spent`): a piece of code takes its fiber on
(`Exec.pieces`), and what a channel does takes its calls on, of which no side makes more than 1301.
Since some fiber can always move, every run comes to the exit of main (`prime_seive_prints`).
-/

set_option autoImplicit false

namespace Demo.PrimeSeive

open Lib Channel

/-! ## The pieces of code that have been run -/

def Gen.pieces : Gen → Nat
  | .init => 0
  | .loop n => 2 * n + 1
  | .sending n => 2 * n + 2

def Filter.pieces : Filter → Nat
  | .unborn => 0
  | .loop r m | .passing r m => 2 * r + 2 * m + 1
  | .receiving r m | .sending r m => 2 * r + 2 * m + 2

def Main.pieces : Main → Nat
  | .loop i _ => 3 * i
  | .receiving i _ => 3 * i + 1
  | .received i _ => 3 * i + 2
  | .exited => 3 * rounds + 1

/-- How far the fibers have come. -/
def Control.pieces (p : Control) : Nat :=
  p.gen.pieces + p.main.pieces + ∑ k ∈ Finset.range rounds, (p.filter k).pieces

/-- No side of a channel makes so many calls. -/
def callBound : Nat := 1301

/-- How far the calls have come. -/
def State.ranks (s : State) : Nat :=
  ∑ c ∈ Finset.range (rounds + 1), ∑ n ∈ Finset.range callBound,
    (((s.ch c).pc ⟨.sender, n⟩).rank + ((s.ch c).pc ⟨.receiver, n⟩).rank)

def State.spent (s : State) : Nat := s.ctl.pieces + s.ranks

variable {L : Layout} {s s' : State} {t : Channel.State Turn} {read : Var → Int}
  {returned : Nat → Turn → Prop} {p p' : Control} {a : Act} {c k n : Nat} {e : Side}

theorem Control.Wired.round_le (h : p.Wired) : p.main.round ≤ rounds := by
  have hl := h.last
  unfold Main.round
  cases hm : p.main with
  | loop i ch =>
    rw [hm] at hl
    exact hl.2
  | receiving i ch =>
    rw [hm] at hl
    exact Nat.le_of_lt hl.2
  | received i ch =>
    rw [hm] at hl
    exact Nat.le_of_lt hl.2
  | exited => exact Nat.le_refl _

/-- A filter has come on. -/
theorem pieces_filter {f : Nat → Filter} {x : Filter} (hk : k < rounds)
    (hx : (f k).pieces < x.pieces) :
    ∑ j ∈ Finset.range rounds, (f j).pieces <
      ∑ j ∈ Finset.range rounds, (Function.update f k x j).pieces := by
  refine Finset.sum_lt_sum (fun j _ => ?_) ⟨k, Finset.mem_range.2 hk, ?_⟩
  · by_cases hj : j = k
    · rw [hj, Function.update_self]
      exact Nat.le_of_lt hx
    · rw [Function.update_of_ne hj]
  · rw [Function.update_self]
    exact hx

/-- **A piece of code takes its fiber on.** -/
theorem Exec.pieces (h : Exec read returned p a p') (hw : p.Wired) : p.pieces < p'.pieces := by
  have hlt : ∀ {k}, p.filter k ≠ .unborn → k < rounds := fun hk =>
    Nat.lt_of_lt_of_le (hw.lt hk) hw.round_le
  have hfilter : ∀ {k x}, p.filter k ≠ .unborn → (p.filter k).pieces < x.pieces →
      p.pieces < Control.pieces { p with filter := Function.update p.filter k x } := by
    intro k x hk hx
    exact Nat.add_lt_add_left (pieces_filter (hlt hk) hx) _
  cases h with
  | genInit h =>
    unfold Control.pieces
    simp only [h, Gen.pieces]
    omega
  | genSend n h =>
    unfold Control.pieces
    simp only [h, Gen.pieces]
    omega
  | genNext n h hr =>
    unfold Control.pieces
    simp only [h, Gen.pieces]
    omega
  | filterReceive k r m h =>
    exact hfilter (by simp [h]) (by simp [h, Filter.pieces])
  | filterTest k r m h hr =>
    refine hfilter (by simp [h]) ?_
    rw [h]
    split <;> simp only [Filter.pieces] <;> omega
  | filterSend k r m h =>
    exact hfilter (by simp [h]) (by simp [h, Filter.pieces])
  | filterNext k r m h hr =>
    refine hfilter (by simp [h]) ?_
    simp only [h, Filter.pieces]
    omega
  | mainReceive i ch h hi =>
    unfold Control.pieces
    simp only [h, Main.pieces]
    omega
  | mainPrint i ch h hr =>
    unfold Control.pieces
    simp only [h, Main.pieces]
    omega
  | mainSpawn i ch h =>
    have hl := hw.last
    rw [h] at hl
    have hborn := (hw.born i).2 (by rw [h]; exact Nat.le_refl i)
    have hsum := pieces_filter (f := p.filter) (k := i) (x := .loop 1 0) hl.2 (by
      simp [hborn, Filter.pieces])
    unfold Control.pieces
    simp only [h, Main.pieces]
    omega
  | mainExit i ch h hi =>
    have hl := hw.last
    rw [h] at hl
    have hle := hl.2
    unfold Control.pieces
    simp only [h, Main.pieces]
    omega

/-! ## The calls -/

/-- The calls have come on, if one has and none has been taken back. -/
theorem ranks_le (h : ∀ c i, ((s.ch c).pc i).rank ≤ ((s'.ch c).pc i).rank) :
    s.ranks ≤ s'.ranks :=
  Finset.sum_le_sum fun c _ => Finset.sum_le_sum fun _ _ => Nat.add_le_add (h c _) (h c _)

theorem ranks_lt (h : ∀ c i, ((s.ch c).pc i).rank ≤ ((s'.ch c).pc i).rank) (hc : c ≤ rounds)
    (hn : n < callBound) (hlt : ((s.ch c).pc ⟨e, n⟩).rank < ((s'.ch c).pc ⟨e, n⟩).rank) :
    s.ranks < s'.ranks := by
  refine Finset.sum_lt_sum (fun c _ => Finset.sum_le_sum fun _ _ => Nat.add_le_add (h c _) (h c _))
    ⟨c, Finset.mem_range.2 (by omega), ?_⟩
  refine Finset.sum_lt_sum (fun _ _ => Nat.add_le_add (h c _) (h c _))
    ⟨n, Finset.mem_range.2 hn, ?_⟩
  have h1 := h c ⟨.sender, n⟩
  have h2 := h c ⟨.receiver, n⟩
  cases e <;> omega

/-- On no channel is there more than on the first. -/
theorem Net.Inv.length_lt {s : Net} (h : s.Inv) (c : Nat) : (s.vals c).length < 1300 := by
  by_cases hc : c ≤ s.ctl.main.round
  · refine Nat.lt_of_le_of_lt ?_ h.bound
    induction c with
    | zero => exact Nat.le_refl _
    | succ k ih =>
      have hborn : s.ctl.filter k ≠ .unborn := by
        rw [Ne, h.wired.born]
        omega
      obtain ⟨y, -, hy⟩ := h.flow hborn
      have hle := congrArg List.length hy
      have hpass : (pass (s.ctl.f k).prime (s.vals k)).length ≤ (s.vals k).length :=
        List.length_filter_le _ _
      rw [List.length_append] at hle
      have := ih (by omega)
      omega
  · -- the channel has not been created
    obtain ⟨k, rfl⟩ : ∃ k, c = k + 1 := ⟨c - 1, by omega⟩
    have hborn := (h.wired.born k).2 (by omega)
    have hcount := h.count (k + 1) .sender
    simp only [Control.point, Control.sendPoint, hborn, Filter.next, Point.Counts] at hcount
    omega

/-- Only created channels are called. -/
theorem Control.Wired.le_of_busy (h : p.Wired) (hb : p.point c e = .busy n) : c ≤ rounds := by
  have hle := h.round_le
  by_contra hc
  have hborn := (h.born c).2 (by omega)
  cases e with
  | sender =>
    obtain ⟨k, rfl⟩ : ∃ k, c = k + 1 := ⟨c - 1, by omega⟩
    have hborn' := (h.born k).2 (by omega)
    simp [Control.point, Control.sendPoint, hborn', Filter.next] at hb
  | receiver =>
    have hl := h.last
    simp only [Control.point, hborn, Filter.point] at hb
    cases hm : p.main with
    | loop i ch =>
      rw [hm] at hb
      cases hb
    | receiving i ch =>
      rw [hm] at hl
      have := hl.2
      have hne : ch ≠ c := by
        have := hl.1
        omega
      simp [hm, Main.point, hne] at hb
    | received i ch =>
      rw [hm] at hb
      simp only [Main.point] at hb
      split at hb <;> cases hb
    | exited =>
      rw [hm] at hb
      cases hb

/-- What a piece of code does takes no call back. -/
theorem Coupled.ranks_exec (h : Coupled L s) (hx : Exec (s.read L) s.returned s.ctl a p) :
    s.ranks ≤ State.ranks { s.perform L a with ctl := p } := by
  refine ranks_le fun c i => ?_
  cases a with
  | none => exact Nat.le_refl _
  | write v x => exact Nat.le_refl _
  | create c' =>
    show _ ≤ ((Function.update s.ch c' _ c).pc i).rank
    by_cases hc : c = c'
    · -- the channel has not been used
      subst hc
      obtain ⟨e, n⟩ := i
      have hat := h.points c e
      rw [(hx.create h.wired e).1] at hat
      rw [hat.1 n (Nat.zero_le n)]
      exact Nat.zero_le _
    · rw [Function.update_of_ne hc]
  | call c' t v =>
    show _ ≤ ((Function.update s.ch c' _ c).pc i).rank
    by_cases hc : c = c'
    · subst hc
      rw [Function.update_self]
      rcases hx.points h.wired with ⟨c', e, n, v', he, hready, -⟩ | ⟨hno, -⟩
      · obtain ⟨rfl, rfl, rfl⟩ := Act.call.inj he
        have hat := h.points c e
        rw [hready] at hat
        by_cases hi : i = ⟨e, n⟩
        · rw [hi, hat.1 n (Nat.le_refl n)]
          exact Nat.zero_le _
        · simp only [State.setItem, State.goto, Function.update_of_ne hi]
          exact Nat.le_refl _
      · exact absurd rfl (hno _ _ _)
    · rw [Function.update_of_ne hc]

/-- **Every step brings the program nearer to its end.** -/
theorem Step.spent (h : Reached L s) (hs : Step L s s') : s.spent < s'.spent := by
  obtain ⟨hc, hn⟩ := h.coupled
  unfold State.spent
  cases hs with
  | exec hx hex harg =>
    exact Nat.add_lt_add_of_lt_of_le (hex.pieces hc.wired) (hc.ranks_exec hex)
  | chan c t hx hi =>
    refine Nat.add_lt_add_left ?_ _
    obtain ⟨hle, ⟨e, n⟩, hlt⟩ := hi.rank (hc.chan c).reached.inv (plain_turns _ _)
    -- the call that comes on is one that a fiber is in
    have hpend : ((s.chan c).pc ⟨e, n⟩).pending := by
      refine ⟨fun hf => ?_, fun r hr => ?_⟩
      · rw [hf, hi.2.2 _ hf] at hlt
        exact Nat.lt_irrefl _ hlt
      · rw [hr] at hlt
        exact absurd (Pc.rank_le (t.pc ⟨e, n⟩)) (Nat.not_le_of_lt hlt)
    have hb := At.of_pending (hc.points c e) hpend
    have hcount := hn.count c e
    rw [show (s.net L).ctl = s.ctl from rfl, hb] at hcount
    have hlen := hn.length_lt c
    refine ranks_lt (c := c) (n := n) (e := e) (fun c' i => ?_) (hc.wired.le_of_busy hb) ?_ ?_
    · show _ ≤ ((Function.update s.ch c t c').pc i).rank
      by_cases hc' : c' = c
      · subst hc'
        rw [Function.update_self]
        exact hle i
      · rw [Function.update_of_ne hc']
    · unfold callBound
      rcases hcount with hcount | hcount <;> omega
    · show _ < ((Function.update s.ch c t c).pc ⟨e, n⟩).rank
      rw [Function.update_self]
      exact hlt

/-! ## The end -/

theorem Net.Inv.gen_pieces {s : Net} (h : s.Inv) : s.ctl.gen.pieces ≤ 2600 := by
  have hc := h.count 0 .sender
  have hb := h.bound
  cases hg : s.ctl.gen <;>
    simp only [Control.point, Control.sendPoint, hg, Gen.point, Point.Counts,
      Gen.pieces] at hc ⊢ <;>
    omega

theorem Net.Inv.filter_pieces {s : Net} (h : s.Inv) (k : Nat) :
    (s.ctl.filter k).pieces ≤ 5200 := by
  have hr := h.count k .receiver
  have hs := h.count (k + 1) .sender
  have hb := h.length_lt k
  have hb' := h.length_lt (k + 1)
  cases hf : s.ctl.filter k <;>
    simp only [Control.point, Control.sendPoint, hf, Filter.point, Filter.next, Point.Counts,
      Filter.pieces] at hr hs ⊢ <;>
    omega

theorem Control.Wired.main_pieces (h : p.Wired) : p.main.pieces ≤ 301 := by
  have hl := h.last
  have hround : rounds = 100 := rfl
  cases hm : p.main with
  | exited => exact Nat.le_refl _
  | _ =>
    rw [hm] at hl
    have := hl.2
    simp only [Main.pieces]
    omega

/-- How far the program can come. -/
def spentBound : Nat := 2600 + 301 + 100 * 5200 + 101 * (callBound * 18)

theorem Reached.spent_le (h : Reached L s) : s.spent ≤ spentBound := by
  obtain ⟨hc, hn⟩ := h.coupled
  have hgen : s.ctl.gen.pieces ≤ 2600 := hn.gen_pieces
  have hmain := hc.wired.main_pieces
  have hfilter : ∑ k ∈ Finset.range rounds, (s.ctl.filter k).pieces ≤ 100 * 5200 := by
    have := Finset.sum_le_card_nsmul (Finset.range rounds) (fun k => (s.ctl.filter k).pieces) 5200
      fun k _ => hn.filter_pieces k
    rwa [Finset.card_range] at this
  have hranks : s.ranks ≤ 101 * (callBound * 18) := by
    have := Finset.sum_le_card_nsmul (Finset.range (rounds + 1))
      (fun c => ∑ n ∈ Finset.range callBound,
        (((s.ch c).pc ⟨.sender, n⟩).rank + ((s.ch c).pc ⟨.receiver, n⟩).rank))
      (callBound * 18) fun c _ => by
        have := Finset.sum_le_card_nsmul (Finset.range callBound)
          (fun n => ((s.ch c).pc ⟨.sender, n⟩).rank + ((s.ch c).pc ⟨.receiver, n⟩).rank) 18
          fun n _ => Nat.add_le_add (Pc.rank_le _) (Pc.rank_le _)
        rwa [Finset.card_range] at this
    rwa [Finset.card_range] at this
  unfold State.spent Control.pieces spentBound
  omega

/-- The first hundred primes. -/
noncomputable def primes : List Int := (List.range rounds).map fun k => (Nat.nth Nat.Prime k : Int)

theorem Reached.printed (h : Reached L s) :
    s.ctl.printed = primes.take s.ctl.main.printed := by
  obtain ⟨hc, hn⟩ := h.coupled
  have hp : s.ctl.printed = (List.range s.ctl.printed.length).map fun k =>
      (Nat.nth Nat.Prime k : Int) := hn.primes
  have hlen : s.ctl.printed.length = s.ctl.main.printed := hn.printed
  have hle : s.ctl.main.printed ≤ rounds := by
    have hl := hc.wired.last
    cases hm : s.ctl.main with
    | exited => exact Nat.le_refl _
    | received i ch =>
      rw [hm] at hl
      exact hl.2
    | receiving i ch =>
      rw [hm] at hl
      exact Nat.le_of_lt hl.2
    | loop i ch =>
      rw [hm] at hl
      exact hl.2
  rw [hp, hlen, primes, ← List.map_take, List.take_range, Nat.min_eq_left hle]

/-- **The program prints the first hundred primes and exits.** Under any interleaving of its fibers,
on channels of `src/channel.c` call by call and byte by byte, what main has printed are the first
primes, and `i` of the generator does not overflow; and every run, whatever the scheduler does,
comes to the exit with all hundred printed. -/
theorem prime_seive_prints (L : Layout) :
    (∀ s, Reached L s → s.ctl.printed = primes.take s.ctl.main.printed ∧
      (s.ctl.gen = .init ∨ 2 ≤ s.read L .i ∧ s.read L .i < 1302)) ∧
    ∀ ρ : CompleteRun (Step L), (∃ mem f, ρ.state 0 = .start L mem f) →
      ∃ n, (ρ.state n).ctl.main = .exited ∧ (ρ.state n).ctl.printed = primes := by
  constructor
  · intro s h
    refine ⟨h.printed, ?_⟩
    obtain ⟨-, hn⟩ := h.coupled
    have hk : s.ctl.gen.Knows (s.read L .i) := hn.gen
    have hc : s.ctl.gen.point.Counts ((s.net L).vals 0).length := hn.count 0 .sender
    have hb := hn.bound
    cases hg : s.ctl.gen with
    | init => exact .inl rfl
    | loop n =>
      right
      simp only [hg, Gen.Knows, Gen.point, Point.Counts] at hk hc
      omega
    | sending n =>
      right
      simp only [hg, Gen.Knows, Gen.point, Point.Counts] at hk hc
      omega
  · intro ρ h0
    have hr : ∀ n, Reached L (ρ.state n) := ρ.reachable h0
    obtain ⟨n, hn⟩ := ρ.stops (fun n s' hs => hs.spent (hr n)) (fun n => (hr n).spent_le)
    have hx : (ρ.state n).ctl.main = .exited := by
      by_contra hx
      obtain ⟨s', hs⟩ := (hr n).coupled.1.moves hx
      exact hn s' hs
    refine ⟨n, hx, ?_⟩
    rw [(hr n).printed, hx]
    exact List.take_of_length_le (by simp [primes, Main.printed])

/-- The variables one after the other. -/
def stack : Layout where
  addr
    | .prime => 0
    | .i => 4
    | .filterI k => 8 + 4 * k
  apart u v h := by
    cases u <;> cases v <;> simp [sizeofInt] at h ⊢ <;> omega

theorem prime_seive_prints_run : ∃ ρ : CompleteRun (Step stack),
    ∃ n, (ρ.state n).ctl.main = .exited ∧ (ρ.state n).ctl.printed = primes := by
  obtain ⟨ρ, hρ⟩ := CompleteRun.exists_from (Step stack)
    (.start stack (fun _ => 0) fun _ => ⟨0, 0, 0⟩)
  exact ⟨ρ, (prime_seive_prints stack).2 ρ ⟨_, _, hρ⟩⟩

end Demo.PrimeSeive
