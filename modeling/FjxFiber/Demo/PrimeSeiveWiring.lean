import FjxFiber.Demo.PrimeSeive

/-!
# How the fibers of the prime sieve are joined (`demo/prime-seive.c`)

Where a fiber stands at the channels it uses (`Control.point`), and that filter `k` joins channels
`k` and `k + 1` (`Control.Wired`). A piece of code begins one call, or goes on after one, or leaves
the sides of all channels where they are (`Exec.points`).
-/

set_option autoImplicit false

namespace Demo.PrimeSeive

open Lib Channel

/-! ## Where the fibers stand at their channels -/

/-- A side of a channel has made `n` calls that have returned, and is in none or in the next. -/
inductive Point
  | ready (n : Nat)
  | busy (n : Nat)
  deriving DecidableEq, Repr

def Gen.point : Gen → Point
  | .init => .ready 0
  | .loop n => .ready n
  | .sending n => .busy n

/-- A filter, as the sender of the next channel. -/
def Filter.next : Filter → Point
  | .unborn => .ready 0
  | .loop _ m | .receiving _ m | .passing _ m => .ready m
  | .sending _ m => .busy m

/-- Main, as the receiver of a channel whose filter is not born. -/
def Main.point (c : Nat) : Main → Point
  | .receiving _ ch => if ch = c then .busy 0 else .ready 0
  | .received _ ch => if ch = c then .ready 1 else .ready 0
  | _ => .ready 0

/-- A filter, as the receiver of its channel. -/
def Filter.point (main : Point) : Filter → Point
  | .unborn => main
  | .loop r _ | .passing r _ | .sending r _ => .ready r
  | .receiving r _ => .busy r

def Control.sendPoint (p : Control) : Nat → Point
  | 0 => p.gen.point
  | k + 1 => (p.filter k).next

/-- Where a side of channel `c` stands. -/
def Control.point (p : Control) (c : Nat) : Side → Point
  | .sender => p.sendPoint c
  | .receiver => (p.filter c).point (p.main.point c)

/-! ## The wiring -/

/-- The number of filters spawned. -/
def Main.round : Main → Nat
  | .loop i _ | .receiving i _ | .received i _ => i
  | .exited => rounds

/-- Main is at the last channel. -/
def Main.AtLast : Main → Prop
  | .loop i ch => ch = i ∧ i ≤ rounds
  | .receiving i ch | .received i ch => ch = i ∧ i < rounds
  | .exited => True

/-- A filter has the prime before it. -/
def Filter.Begun : Filter → Prop
  | .unborn => True
  | .loop r _ | .receiving r _ | .passing r _ | .sending r _ => 1 ≤ r

/-- **The wiring**: filter `k` joins channels `k` and `k + 1`, and main is at the last channel. -/
structure Control.Wired (p : Control) : Prop where
  born : ∀ k, p.filter k = .unborn ↔ p.main.round ≤ k
  ends : ∀ k < p.main.round, (p.f k).ch = k ∧ (p.f k).chNext = k + 1
  created : p.created = p.main.round + 1
  last : p.main.AtLast
  begun : ∀ k, (p.filter k).Begun

variable {read : Var → Int} {returned : Nat → Turn → Prop} {p p' : Control} {a : Act}
  {k c n : Nat}

namespace Control.Wired

theorem lt (h : p.Wired) (hk : p.filter k ≠ .unborn) : k < p.main.round := by
  have := (h.born k).not.1 hk
  omega

theorem ch (h : p.Wired) (hk : p.filter k ≠ .unborn) : (p.f k).ch = k := (h.ends k (h.lt hk)).1

theorem chNext (h : p.Wired) (hk : p.filter k ≠ .unborn) : (p.f k).chNext = k + 1 :=
  (h.ends k (h.lt hk)).2

/-- A filter goes on. -/
theorem filter (h : p.Wired) {x : Filter} (hk : p.filter k ≠ .unborn) (hx : x ≠ .unborn)
    (hb : x.Begun) : Wired { p with filter := Function.update p.filter k x } := by
  refine ⟨fun j => ?_, h.ends, h.created, h.last, fun j => ?_⟩
  · show Function.update p.filter k x j = .unborn ↔ p.main.round ≤ j
    by_cases hj : j = k
    · have hlt := h.lt hk
      rw [hj, Function.update_self]
      exact iff_of_false hx (by omega)
    · rw [Function.update_of_ne hj]
      exact h.born j
  · show (Function.update p.filter k x j).Begun
    by_cases hj : j = k
    · rw [hj, Function.update_self]
      exact hb
    · rw [Function.update_of_ne hj]
      exact h.begun j

/-- Main goes on in the same round. -/
theorem main (h : p.Wired) {x : Main} (hx : x.round = p.main.round) (hl : x.AtLast)
    (l : List Int) : Wired { p with main := x, printed := l } := by
  refine ⟨fun j => ?_, fun j hj => h.ends j ?_, ?_, hl, h.begun⟩
  · show p.filter j = .unborn ↔ x.round ≤ j
    rw [hx]
    exact h.born j
  · rw [← hx]
    exact hj
  · show p.created = x.round + 1
    rw [hx]
    exact h.created

/-- Main creates the next channel and spawns a filter. -/
theorem spawn (h : p.Wired) {i ch : Nat} (hm : p.main = .received i ch) (d : Int) :
    Wired { p with
      main := .loop (i + 1) p.created,
      created := p.created + 1,
      f := Function.update p.f i { ch, chNext := p.created, prime := d },
      filter := Function.update p.filter i (.loop 1 0) } := by
  have hl := h.last
  have hcr := h.created
  have hround : p.main.round = i := by rw [hm]; rfl
  rw [hm] at hl
  obtain ⟨rfl, hlt⟩ := hl
  rw [hround] at hcr
  refine ⟨fun j => ?_, fun j (hj : j < ch + 1) => ?_, ?_, ⟨hcr, hlt⟩, fun j => ?_⟩
  · show Function.update p.filter ch (.loop 1 0) j = .unborn ↔ ch + 1 ≤ j
    by_cases hj : j = ch
    · rw [hj, Function.update_self]
      exact iff_of_false (by simp) (by omega)
    · rw [Function.update_of_ne hj, h.born, hround]
      omega
  · by_cases he : j = ch
    · simp [he, hcr]
    · simp only [Function.update_of_ne he]
      exact h.ends j (by omega)
  · show p.created + 1 = ch + 1 + 1
    rw [hcr]
  · show (Function.update p.filter ch (.loop 1 0) j).Begun
    by_cases hj : j = ch
    · rw [hj, Function.update_self]
      exact Nat.le_refl 1
    · rw [Function.update_of_ne hj]
      exact h.begun j

end Control.Wired

theorem Exec.wired (h : Exec read returned p a p') (hw : p.Wired) : p'.Wired := by
  have hl := hw.last
  cases h with
  | genInit h => exact ⟨hw.born, hw.ends, hw.created, hw.last, hw.begun⟩
  | genSend n h => exact ⟨hw.born, hw.ends, hw.created, hw.last, hw.begun⟩
  | genNext n h hr => exact ⟨hw.born, hw.ends, hw.created, hw.last, hw.begun⟩
  | filterReceive k r m h =>
    have hb := hw.begun k
    rw [h] at hb
    exact hw.filter (by simp [h]) (by simp) hb
  | filterTest k r m h hr =>
    refine hw.filter (by simp [h]) (by split <;> simp) ?_
    split <;> exact Nat.succ_le_succ (Nat.zero_le r)
  | filterSend k r m h =>
    have hb := hw.begun k
    rw [h] at hb
    exact hw.filter (by simp [h]) (by simp) hb
  | filterNext k r m h hr =>
    have hb := hw.begun k
    rw [h] at hb
    exact hw.filter (by simp [h]) (by simp) hb
  | mainReceive i ch h hi =>
    rw [h] at hl
    exact hw.main (x := .receiving i ch) (by rw [h]; rfl) ⟨hl.1, hi⟩ p.printed
  | mainPrint i ch h hr =>
    rw [h] at hl
    exact hw.main (x := .received i ch) (by rw [h]; rfl) hl _
  | mainSpawn i ch h => exact hw.spawn h _
  | mainExit i ch h hi =>
    rw [h] at hl
    refine hw.main (x := .exited) ?_ trivial p.printed
    show rounds = p.main.round
    rw [h]
    exact Nat.le_antisymm (Nat.le_of_not_lt hi) hl.2

/-- **Every call passes its caller's own variable**: `Step.exec` asks nothing of a program that is
wired. -/
theorem Exec.passes (h : Exec read returned p a p') (hw : p.Wired) (L : Layout) :
    a.Passes L := by
  cases h with
  | genSend n h => rfl
  | filterReceive k r m h =>
    have hborn : p.filter k ≠ .unborn := by simp [h]
    have hb := hw.begun k
    rw [h] at hb
    obtain ⟨j, rfl⟩ := Nat.exists_eq_add_of_le' hb
    show L.data (p.f k).ch ⟨.receiver, j + 1⟩ = L.addr (.filterI k)
    rw [hw.ch hborn]
    rfl
  | filterSend k r m h =>
    have hborn : p.filter k ≠ .unborn := by simp [h]
    show L.data (p.f k).chNext ⟨.sender, m⟩ = L.addr (.filterI k)
    rw [hw.chNext hborn]
    rfl
  | mainReceive i ch h hi => rfl
  | _ => trivial

/-- A filter goes on: no other side of a channel is concerned. -/
theorem point_filter {x : Filter} {e : Side} (h1 : (c, e) ≠ (k + 1, .sender))
    (h2 : (c, e) ≠ (k, .receiver)) :
    Control.point { p with filter := Function.update p.filter k x } c e = p.point c e := by
  cases e with
  | sender =>
    cases c with
    | zero => rfl
    | succ c =>
      have hne : c ≠ k := by
        rintro rfl
        exact h1 rfl
      simp only [Control.point, Control.sendPoint, Function.update_of_ne hne]
  | receiver =>
    have hne : c ≠ k := by
      rintro rfl
      exact h2 rfl
    simp only [Control.point, Function.update_of_ne hne]

theorem point_filter_sender {x : Filter} :
    Control.point { p with filter := Function.update p.filter k x } (k + 1) .sender = x.next := by
  simp only [Control.point, Control.sendPoint, Function.update_self]

theorem point_filter_receiver {x : Filter} :
    Control.point { p with filter := Function.update p.filter k x } k .receiver =
      x.point (p.main.point k) := by
  simp only [Control.point, Function.update_self]

/-- **What a piece of code does at the channels**: it begins a call, or goes on after one, or it
leaves the sides of all channels where they are. -/
theorem Exec.points (h : Exec read returned p a p') (hw : p.Wired) :
    (∃ c e n v, a = .call c ⟨e, n⟩ v ∧ p.point c e = .ready n ∧ p'.point c e = .busy n ∧
      ∀ c' e', (c', e') ≠ (c, e) → p'.point c' e' = p.point c' e') ∨
    (∀ c t v, a ≠ .call c t v) ∧ ∀ c e, p'.point c e = p.point c e ∨
      ∃ n, p.point c e = .busy n ∧ returned c ⟨e, n⟩ ∧ p'.point c e = .ready (n + 1) := by
  cases h with
  | genInit h =>
    refine .inr ⟨by simp, fun c e => .inl ?_⟩
    cases e with
    | sender =>
      cases c with
      | zero => simp [Control.point, Control.sendPoint, h, Gen.point]
      | succ c => rfl
    | receiver => rfl
  | genSend n h =>
    refine .inl ⟨0, .sender, n, .i, rfl, ?_, rfl, ?_⟩
    · simp [Control.point, Control.sendPoint, h, Gen.point]
    intro c e hne
    cases e with
    | sender =>
      cases c with
      | zero => exact absurd rfl hne
      | succ c => rfl
    | receiver => rfl
  | genNext n h hr =>
    refine .inr ⟨by simp, fun c e => ?_⟩
    cases e with
    | sender =>
      cases c with
      | zero => exact .inr ⟨n, by simp [Control.point, Control.sendPoint, h, Gen.point], hr, rfl⟩
      | succ c => exact .inl rfl
    | receiver => exact .inl rfl
  | filterReceive k r m h =>
    have hk : p.filter k ≠ .unborn := by simp [h]
    refine .inl ⟨(p.f k).ch, .receiver, r, .filterI k, rfl, ?_, ?_, fun c e hne => ?_⟩
    · rw [hw.ch hk]
      simp [Control.point, h, Filter.point]
    · rw [hw.ch hk, point_filter_receiver]
      rfl
    · rw [hw.ch hk] at hne
      by_cases h1 : (c, e) = (k + 1, .sender)
      · obtain ⟨rfl, rfl⟩ := Prod.mk.inj h1
        rw [point_filter_sender]
        simp [Control.point, Control.sendPoint, h, Filter.next]
      · exact point_filter h1 hne
  | filterTest k r m h hr =>
    have hk : p.filter k ≠ .unborn := by simp [h]
    rw [hw.ch hk] at hr
    refine .inr ⟨by simp, fun c e => ?_⟩
    by_cases h1 : (c, e) = (k + 1, .sender)
    · obtain ⟨rfl, rfl⟩ := Prod.mk.inj h1
      left
      rw [point_filter_sender]
      simp only [Control.point, Control.sendPoint, h]
      split <;> rfl
    by_cases h2 : (c, e) = (k, .receiver)
    · obtain ⟨rfl, rfl⟩ := Prod.mk.inj h2
      refine .inr ⟨r, by simp [Control.point, h, Filter.point], hr, ?_⟩
      rw [point_filter_receiver]
      split <;> rfl
    · exact .inl (point_filter h1 h2)
  | filterSend k r m h =>
    have hk : p.filter k ≠ .unborn := by simp [h]
    refine .inl ⟨(p.f k).chNext, .sender, m, .filterI k, rfl, ?_, ?_, fun c e hne => ?_⟩
    · rw [hw.chNext hk]
      simp [Control.point, Control.sendPoint, h, Filter.next]
    · rw [hw.chNext hk, point_filter_sender]
      rfl
    · rw [hw.chNext hk] at hne
      by_cases h2 : (c, e) = (k, .receiver)
      · obtain ⟨rfl, rfl⟩ := Prod.mk.inj h2
        rw [point_filter_receiver]
        simp [Control.point, h, Filter.point]
      · exact point_filter hne h2
  | filterNext k r m h hr =>
    have hk : p.filter k ≠ .unborn := by simp [h]
    rw [hw.chNext hk] at hr
    refine .inr ⟨by simp, fun c e => ?_⟩
    by_cases h1 : (c, e) = (k + 1, .sender)
    · obtain ⟨rfl, rfl⟩ := Prod.mk.inj h1
      refine .inr ⟨m, by simp [Control.point, Control.sendPoint, h, Filter.next], hr, ?_⟩
      rw [point_filter_sender]
      rfl
    by_cases h2 : (c, e) = (k, .receiver)
    · obtain ⟨rfl, rfl⟩ := Prod.mk.inj h2
      left
      rw [point_filter_receiver]
      simp [Control.point, h, Filter.point]
    · exact .inl (point_filter h1 h2)
  | mainReceive i ch h hi =>
    have hl := hw.last
    rw [h] at hl
    have hborn : p.filter ch = .unborn := by
      rw [hw.born, h]
      exact Nat.le_of_eq hl.1.symm
    refine .inl ⟨ch, .receiver, 0, .prime, rfl, ?_, ?_, fun c e hne => ?_⟩
    · simp [Control.point, hborn, Filter.point, h, Main.point]
    · simp [Control.point, hborn, Filter.point, Main.point]
    · cases e with
      | sender => cases c <;> rfl
      | receiver =>
        have hc : ch ≠ c := by
          rintro rfl
          exact hne rfl
        simp [Control.point, h, Main.point, hc]
  | mainPrint i ch h hr =>
    have hl := hw.last
    rw [h] at hl
    have hborn : p.filter ch = .unborn := by
      rw [hw.born, h]
      exact Nat.le_of_eq hl.1.symm
    refine .inr ⟨by simp, fun c e => ?_⟩
    cases e with
    | sender =>
      left
      cases c <;> rfl
    | receiver =>
      by_cases hc : ch = c
      · subst hc
        refine .inr ⟨0, ?_, hr, ?_⟩
        · simp [Control.point, hborn, Filter.point, h, Main.point]
        · simp [Control.point, hborn, Filter.point, Main.point]
      · left
        simp [Control.point, h, Main.point, hc]
  | mainSpawn i ch h =>
    have hl := hw.last
    rw [h] at hl
    obtain ⟨rfl, -⟩ := hl
    have hborn : p.filter ch = .unborn := by
      rw [hw.born, h]
      exact Nat.le_refl ch
    refine .inr ⟨by simp, fun c e => .inl ?_⟩
    cases e with
    | sender =>
      cases c with
      | zero => rfl
      | succ c =>
        by_cases hc : c = ch
        · simp [Control.point, Control.sendPoint, hc, hborn, Filter.next]
        · simp [Control.point, Control.sendPoint, hc]
    | receiver =>
      by_cases hc : c = ch
      · simp [Control.point, hc, hborn, Filter.point, h, Main.point]
      · simp [Control.point, hc, h, Main.point, Ne.symm hc]
  | mainExit i ch h hi =>
    refine .inr ⟨by simp, fun c e => .inl ?_⟩
    cases e with
    | sender => cases c <;> rfl
    | receiver => simp [Control.point, h, Main.point]

end Demo.PrimeSeive
