import FjxFiber.Demo.PrimeSeiveWiring
import FjxFiber.Lib.Sieve

/-!
# The prime sieve as a network (`demo/prime-seive.c`)

The code of `PrimeSeive` on variables that are numbers and channels that are lists: `vals c` is what
has been transferred on channel `c`, and a transfer, which takes place when both fibers are in their
calls, is one step. `Inv` is what the fibers know about these lists: what filter `k` has sent, with
what it holds, is what it has received without the multiples of its prime. So the lists are
beginnings of the lists of survivors (`Inv.survivors`), what is printed are the primes
(`Inv.primes`), and the generator is never far ahead of the main fiber (`Inv.bound`).
-/

set_option autoImplicit false

namespace Demo.PrimeSeive

open Lib Channel

variable {read : Var → Int} {returned : Nat → Turn → Prop} {p p' : Control} {a : Act} {k c n : Nat}

/-! ## The network -/

structure Net where
  /-- What has been transferred on each channel. -/
  vals : Nat → List Int
  var : Var → Int
  ctl : Control

namespace Net

def perform (s : Net) : Act → Net
  | .write v x => { s with var := Function.update s.var v (Int.bmod x (2 ^ 32)) }
  | _ => s

/-- The next number goes over channel `c`. -/
def transfer (s : Net) (c : Nat) : Net :=
  { s with
    vals := Function.update s.vals c (s.vals c ++ [s.var (sender c)]),
    var := Function.update s.var (receiver c (s.vals c).length) (s.var (sender c)) }

/-- A fiber runs a piece of its code, or a number is transferred between two fibers that are in
their calls. -/
inductive Step : Net → Net → Prop
  | exec {s} {a : Act} {p : Control}
      (h : Exec s.var (fun c t => t.n < (s.vals c).length) s.ctl a p) :
      Step s { s.perform a with ctl := p }
  | transfer {s} (c : Nat) (h : ∀ e, s.ctl.point c e = .busy (s.vals c).length) :
      Step s (s.transfer c)

end Net

/-- The numbers of a list that `d` does not divide. -/
def pass (d : Int) (l : List Int) : List Int := l.filter fun v => v.tmod d ≠ 0

/-- How many transfers there have been at a side. -/
def Point.Counts (l : Nat) : Point → Prop
  | .ready n => l = n
  | .busy n => l = n ∨ l = n + 1

def Gen.Knows (x : Int) : Gen → Prop
  | .init => True
  | .loop n | .sending n => x = n + 2

/-- What a filter for `d` knows: it has sent what it received and `d` does not divide, but for the
number `x` that it holds. -/
def Filter.Knows (d x : Int) (got sent : List Int) : Filter → Prop
  | .unborn => True
  | .loop _ _ => sent = pass d got
  | .receiving r _ => sent = pass d (got.take r) ∧ ∀ v, got[r]? = some v → x = v
  | .passing _ _ => ∃ l, got = l ++ [x] ∧ x.tmod d ≠ 0 ∧ sent = pass d l
  | .sending _ m => ∃ l, got = l ++ [x] ∧ x.tmod d ≠ 0 ∧ sent <+: pass d l ++ [x] ∧
      m = (pass d l).length

def Main.Knows (x : Int) (vals : Nat → List Int) : Main → Prop
  | .receiving i _ => ∀ v, (vals i).head? = some v → x = v
  | .received i _ => (vals i).head? = some x
  | _ => True

/-- How many numbers main has printed. -/
def Main.printed : Main → Nat
  | .loop i _ | .receiving i _ => i
  | .received i _ => i + 1
  | .exited => rounds

/-- **The invariant of the network.** -/
structure Net.Inv (s : Net) : Prop where
  wired : s.ctl.Wired
  count : ∀ c e, (s.ctl.point c e).Counts (s.vals c).length
  gen : s.ctl.gen.Knows (s.var .i)
  first : s.vals 0 = (List.range (s.vals 0).length).map fun n : Nat => (n : Int) + 2
  filter : ∀ k, (s.ctl.filter k).Knows (s.ctl.f k).prime (s.var (.filterI k)) (s.vals k)
    (s.vals (k + 1))
  heads : ∀ k < s.ctl.main.round, (s.vals k).head? = some (s.ctl.f k).prime
  main : s.ctl.main.Knows (s.var .prime) s.vals
  printed : s.ctl.printed.length = s.ctl.main.printed
  listed : ∀ k v, s.ctl.printed[k]? = some v → (s.vals k).head? = some v

/-! ## What the filters have done -/

variable {s s' : Net} {d x : Int} {l : List Int}

theorem pass_append (d : Int) (l m : List Int) : pass d (l ++ m) = pass d l ++ pass d m :=
  List.filter_append ..

theorem pass_of_dvd (h : x.tmod d = 0) : pass d [x] = [] := by
  simp [pass, h]

theorem pass_of_not_dvd (h : x.tmod d ≠ 0) : pass d [x] = [x] := by
  simp [pass, h]

theorem pass_singleton_le (d x : Int) : (pass d [x]).length ≤ 1 := List.length_filter_le _ [x]

namespace Net.Inv

/-- What a filter has received and its prime does not divide it has sent, but for one number at
most. -/
theorem flow (h : s.Inv) (hk : s.ctl.filter k ≠ .unborn) :
    ∃ y, y.length ≤ 1 ∧ pass (s.ctl.f k).prime (s.vals k) = s.vals (k + 1) ++ y := by
  have hf := h.filter k
  have hc := h.count k .receiver
  cases hp : s.ctl.filter k with
  | unborn => exact absurd hp hk
  | loop r m =>
    rw [hp] at hf
    exact ⟨[], by simp, by rw [List.append_nil]; exact hf.symm⟩
  | receiving r m =>
    simp only [hp, Control.point, Filter.point, Point.Counts, Filter.Knows] at hf hc
    rcases hc with hc | hc
    · refine ⟨[], by simp, ?_⟩
      rw [hf.1, ← hc, List.take_length, List.append_nil]
    · -- the number that it has received and not tested
      obtain ⟨l, x, hl⟩ : ∃ l x, s.vals k = l ++ [x] :=
        List.eq_nil_or_concat' (s.vals k) |>.resolve_left fun he => by simp [he] at hc
      have hr : l.length = r := by simpa [hl] using hc
      refine ⟨pass (s.ctl.f k).prime [x], pass_singleton_le _ x, ?_⟩
      rw [hf.1, hl, ← hr, List.take_left, pass_append]
  | passing r m =>
    simp only [hp, Filter.Knows] at hf
    obtain ⟨l, hl, hx, hs⟩ := hf
    exact ⟨[_], by simp, by rw [hs, hl, pass_append, pass_of_not_dvd hx]⟩
  | sending r m =>
    simp only [hp, Filter.Knows] at hf
    obtain ⟨l, hl, hx, ⟨y, hy⟩, hm⟩ := hf
    have hcs := h.count (k + 1) .sender
    simp only [Control.point, Control.sendPoint, hp, Filter.next, Point.Counts] at hcs
    refine ⟨y, ?_, by rw [hl, pass_append, pass_of_not_dvd hx, hy]⟩
    have hlen := congrArg List.length hy
    simp only [List.length_append, List.length_singleton] at hlen
    omega

end Net.Inv

/-! ## The lists of survivors -/

/-- What has been transferred on channel `c`, as natural numbers. -/
def Net.nats (s : Net) (c : Nat) : List Nat := (s.vals c).map Int.toNat

theorem pass_map (p : Nat) (l : List Nat) :
    pass p (l.map fun x : Nat => (x : Int)) =
      (l.filter fun x => ¬ p ∣ x).map fun x : Nat => (x : Int) := by
  unfold pass
  rw [List.filter_map]
  congr 1
  apply List.filter_congr
  intro x _
  simp only [Function.comp, decide_not, Int.natCast_dvd_natCast.symm, Int.dvd_iff_tmod_eq_zero]

theorem map_toNat (l : List Nat) : (l.map fun x : Nat => (x : Int)).map Int.toNat = l := by
  simp [Function.comp_def]

namespace Net.Inv

/-- **What is transferred on channel `c`**: a beginning of the numbers that the first `c` primes do
not divide. -/
theorem survivors (h : s.Inv) (hc : c ≤ s.ctl.main.round) :
    s.vals c = (s.nats c).map (fun x : Nat => (x : Int)) ∧
      ∃ n, s.nats c <+: Sieve.survivors c n := by
  induction c with
  | zero =>
    have hz : s.vals 0 = (List.range' 2 (s.vals 0).length).map fun x : Nat => (x : Int) := by
      conv_lhs => rw [h.first]
      rw [List.range'_eq_map_range, List.map_map]
      apply List.map_congr_left
      intro x _
      simp only [Function.comp]
      omega
    have hn : s.nats 0 = List.range' 2 (s.vals 0).length := by
      unfold Net.nats
      conv_lhs => rw [hz]
      exact map_toNat _
    exact ⟨by rw [hn, ← hz], _, by rw [hn, Sieve.survivors_zero]⟩
  | succ c ih =>
    obtain ⟨hv, n, hpre⟩ := ih (by omega)
    have hborn : s.ctl.filter c ≠ .unborn := fun he => by
      have := (h.wired.born c).1 he
      omega
    obtain ⟨y, -, hy⟩ := h.flow hborn
    have hhead := h.heads c (by omega)
    cases hl : s.nats c with
    | nil => simp [hv, hl] at hhead
    | cons q t =>
      rw [hl] at hpre
      have hq := Sieve.eq_nth_of_prefix hpre
      have hd : (s.ctl.f c).prime = (q : Int) := by
        rw [hv, hl] at hhead
        simpa using hhead.symm
      rw [hv, hd, pass_map, hl] at hy
      -- what it has sent is a beginning of what it has to send
      have htake : s.vals (c + 1) = (((q :: t).filter fun x => ¬ q ∣ x).take
          (s.vals (c + 1)).length).map fun x : Nat => (x : Int) := by
        rw [List.map_take, hy, List.take_left]
      have hn : s.nats (c + 1) = ((q :: t).filter fun x => ¬ q ∣ x).take
          (s.vals (c + 1)).length := by
        unfold Net.nats
        conv_lhs => rw [htake]
        exact map_toNat _
      refine ⟨by rw [hn]; exact htake, n, ?_⟩
      rw [hn, hq]
      rw [hq] at hpre
      exact (List.take_prefix _ _).trans (Sieve.prefix_succ hpre)

/-- The first number on channel `c` is the prime with the number `c`. -/
theorem head_eq (h : s.Inv) (hc : c ≤ s.ctl.main.round) {v : Int}
    (hv : (s.vals c).head? = some v) : v = (Nat.nth Nat.Prime c : Int) := by
  obtain ⟨hm, n, hpre⟩ := h.survivors hc
  cases hl : s.nats c with
  | nil => simp [hm, hl] at hv
  | cons q t =>
    rw [hl] at hpre
    rw [hm, hl] at hv
    rw [← Sieve.eq_nth_of_prefix hpre]
    simpa using hv.symm

/-- **What main prints** are the primes, in their order. -/
theorem primes (h : s.Inv) : s.ctl.printed =
    (List.range s.ctl.printed.length).map fun k => (Nat.nth Nat.Prime k : Int) := by
  apply List.ext_getElem?
  intro k
  by_cases hk : k < s.ctl.printed.length
  · have hget := List.getElem?_eq_getElem hk
    have hround : k ≤ s.ctl.main.round := by
      have hlen := h.printed
      unfold Main.printed at hlen
      unfold Main.round
      cases hm : s.ctl.main <;> simp only [hm] at hlen ⊢ <;> omega
    rw [hget, h.head_eq hround (h.listed k _ hget)]
    simp [hk]
  · simp [Nat.le_of_not_lt hk]

/-! ## How far ahead the generator is -/

/-- A filter takes its own prime from the numbers, and holds one number at most. -/
theorem countP_le (h : s.Inv) (hc : c < s.ctl.main.round) :
    (s.nats c).countP Nat.Prime ≤ (s.nats (c + 1)).countP Nat.Prime + 2 := by
  obtain ⟨hv, n, hpre⟩ := h.survivors (Nat.le_of_lt hc)
  have hborn : s.ctl.filter c ≠ .unborn := fun he => by
    have := (h.wired.born c).1 he
    omega
  obtain ⟨y, hylen, hy⟩ := h.flow hborn
  have hd := h.head_eq (Nat.le_of_lt hc) (h.heads c hc)
  have hle := Sieve.countP_prime_le (Nat.prime_nth_prime c) (Sieve.nodup_of_prefix hpre)
  have hfilter : (s.nats c).filter (fun x => ¬ Nat.nth Nat.Prime c ∣ x) =
      s.nats (c + 1) ++ y.map Int.toNat := by
    rw [hv, hd, pass_map] at hy
    have := congrArg (List.map Int.toNat) hy
    rwa [map_toNat, List.map_append] at this
  rw [hfilter, List.countP_append] at hle
  have hone : (y.map Int.toNat).countP Nat.Prime ≤ 1 :=
    List.countP_le_length.trans (by simpa using hylen)
  omega

/-- On the channel that main receives from there has been one transfer at most. -/
theorem last_length (h : s.Inv) : (s.vals s.ctl.main.round).length ≤ 1 := by
  have hc := h.count s.ctl.main.round .receiver
  have hl := h.wired.last
  have hborn := (h.wired.born s.ctl.main.round).2 (Nat.le_refl _)
  simp only [Control.point, hborn, Filter.point] at hc
  cases hm : s.ctl.main with
  | loop i ch =>
    simp only [hm, Main.point, Point.Counts, Main.round] at hc ⊢
    omega
  | receiving i ch =>
    simp only [hm, Main.AtLast] at hl
    simp only [hm, Main.point, Main.round, hl.1, if_true, Point.Counts] at hc ⊢
    omega
  | received i ch =>
    simp only [hm, Main.AtLast] at hl
    simp only [hm, Main.point, Main.round, hl.1, if_true, Point.Counts] at hc ⊢
    omega
  | exited =>
    simp only [hm, Main.point, Point.Counts, Main.round] at hc ⊢
    omega

end Net.Inv

/-- No smaller number from 2 to 36 divides `x`. -/
def undivided (x : Nat) : Bool := (List.range' 2 35).all fun d => x % d != 0 || x ≤ d

theorem prime_of_undivided {x : Nat} (h2 : 2 ≤ x) (hx : x < 37 * 37) (h : undivided x = true) :
    x.Prime := by
  refine Nat.prime_def_le_sqrt.2 ⟨h2, fun d hd hle hdvd => ?_⟩
  have hsqrt : Nat.sqrt x < 37 := Nat.sqrt_lt.2 hx
  have hlt : d < x := Nat.lt_of_le_of_lt hle (Nat.sqrt_lt_self h2)
  unfold undivided at h
  have hd' := List.all_eq_true.1 h d (List.mem_range'_1.2 ⟨hd, by omega⟩)
  have hmod := Nat.mod_eq_zero_of_dvd hdvd
  simp [hmod] at hd'
  omega

/-- There are at least 202 primes among the first 1300 numbers. -/
theorem many_primes {n : Nat} (hn : 1300 ≤ n) : 202 ≤ (List.range' 2 n).countP Nat.Prime := by
  have hcount : 202 ≤ (List.range' 2 1300).countP undivided := by decide +kernel
  have hprime : (List.range' 2 1300).countP undivided ≤ (List.range' 2 1300).countP Nat.Prime := by
    apply List.countP_mono_left
    intro x hx hu
    rw [List.mem_range'_1] at hx
    simpa using prime_of_undivided hx.1 (by omega) hu
  have hsub : (List.range' 2 1300).Sublist (List.range' 2 n) := by
    obtain ⟨d, rfl⟩ := Nat.exists_eq_add_of_le hn
    rw [← List.range'_append_1]
    exact List.sublist_append_left _ _
  have hle := hsub.countP_le (p := fun x => decide (Nat.Prime x))
  omega

namespace Net.Inv

/-- **The generator is never far ahead of the main fiber.** -/
theorem bound (h : s.Inv) : (s.vals 0).length < 1300 := by
  by_contra hlen
  have hmany := many_primes (Nat.le_of_not_lt hlen)
  have hchain : ∀ c ≤ s.ctl.main.round,
      (s.nats 0).countP Nat.Prime ≤ (s.nats c).countP Nat.Prime + 2 * c := by
    intro c hc
    induction c with
    | zero => simp
    | succ c ih =>
      have h1 := ih (by omega)
      have h2 := h.countP_le (c := c) (by omega)
      omega
  have hlast := hchain _ (Nat.le_refl _)
  have hone : (s.nats s.ctl.main.round).countP Nat.Prime ≤ 1 := by
    refine List.countP_le_length.trans ?_
    rw [Net.nats, List.length_map]
    exact h.last_length
  have hround : s.ctl.main.round ≤ 100 := by
    have hl := h.wired.last
    unfold Main.round
    cases hm : s.ctl.main with
    | loop i ch =>
      rw [hm] at hl
      exact hl.2
    | receiving i ch =>
      rw [hm] at hl
      exact Nat.le_of_lt hl.2
    | received i ch =>
      rw [hm] at hl
      exact Nat.le_of_lt hl.2
    | exited => exact Nat.le_refl _
  obtain ⟨hv, n, hpre⟩ := h.survivors (Nat.zero_le _)
  rw [Sieve.survivors_zero] at hpre
  have hn : s.nats 0 = List.range' 2 (s.vals 0).length := by
    have hlen' : (s.nats 0).length = (s.vals 0).length := by rw [Net.nats, List.length_map]
    have htake := List.prefix_iff_eq_take.1 hpre
    have hle := hpre.length_le
    rw [List.length_range'] at hle
    rw [htake, hlen', List.take_range'_of_length_ge (by omega)]
  rw [hn] at hlast
  omega

end Net.Inv

/-! ## The steps keep the invariant -/

theorem knows_update {f : Nat → Filter} {x : Filter} {d y : Nat → Int} {v : Nat → List Int}
    (h : ∀ j, (f j).Knows (d j) (y j) (v j) (v (j + 1)))
    (hk : x.Knows (d k) (y k) (v k) (v (k + 1))) (j : Nat) :
    (Function.update f k x j).Knows (d j) (y j) (v j) (v (j + 1)) := by
  by_cases hj : j = k
  · rw [hj, Function.update_self]
    exact hk
  · rw [Function.update_of_ne hj]
    exact h j

/-- A list that is one longer than `n` ends with its entry `n`. -/
theorem eq_take_append {l : List Int} (h : l.length = n + 1) :
    ∃ v, l[n]? = some v ∧ l = l.take n ++ [v] := by
  have hn : n < l.length := by omega
  refine ⟨l[n], List.getElem?_eq_getElem hn, ?_⟩
  rw [← List.take_succ_eq_append_getElem hn, List.take_of_length_le (by omega)]

namespace Net.Inv

theorem count_exec (h : s.Inv)
    (hx : Exec s.var (fun c t => t.n < (s.vals c).length) s.ctl a p) (c : Nat) (e : Side) :
    (p.point c e).Counts (s.vals c).length := by
  have hc := h.count c e
  rcases hx.points h.wired with ⟨c', e', n, v, -, hready, hbusy, hother⟩ | ⟨-, hall⟩
  · by_cases he : (c, e) = (c', e')
    · obtain ⟨rfl, rfl⟩ := Prod.mk.inj he
      rw [hready] at hc
      rw [hbusy]
      exact .inl hc
    · rw [hother c e he]
      exact hc
  · rcases hall c e with he | ⟨n, hbusy, hlt, hready⟩
    · rw [he]
      exact hc
    · -- the call has been served
      rw [hbusy] at hc
      rw [hready]
      rcases hc with hc | hc
      · simp only at hlt
        omega
      · exact hc

theorem exec (h : s.Inv)
    (hx : Exec s.var (fun c t => t.n < (s.vals c).length) s.ctl a p) :
    Net.Inv { s.perform a with ctl := p } := by
  have hw := hx.wired h.wired
  have hcount := h.count_exec hx
  have hcv := h.count
  cases hx with
  | genInit hg => exact ⟨hw, hcount, by simp [perform, Gen.Knows], h.first, h.filter, h.heads,
      h.main, h.printed, h.listed⟩
  | genSend n hg =>
    have hk := h.gen
    rw [hg] at hk
    exact ⟨hw, hcount, hk, h.first, h.filter, h.heads, h.main, h.printed, h.listed⟩
  | genNext n hg hr =>
    have hk := h.gen
    rw [hg] at hk
    simp only [Gen.Knows] at hk
    refine ⟨hw, hcount, ?_, h.first, h.filter, h.heads, h.main, h.printed, h.listed⟩
    -- `i` does not overflow
    have hb := h.bound
    simp only at hr
    simp only [perform, Function.update_self, Gen.Knows, hk]
    rw [Int.bmod_def]
    omega
  | filterReceive k r m hf =>
    refine ⟨hw, hcount, h.gen, h.first, ?_, h.heads, h.main, h.printed, h.listed⟩
    refine knows_update h.filter ?_
    have hk := h.filter k
    have hc := hcv k .receiver
    simp only [hf, Control.point, Filter.point, Point.Counts, Filter.Knows] at hk hc
    show s.vals (k + 1) = pass _ ((s.vals k).take r) ∧ ∀ v, (s.vals k)[r]? = some v → _
    rw [← hc, List.take_length]
    exact ⟨hk, by simp⟩
  | filterTest k r m hf hr =>
    refine ⟨hw, hcount, h.gen, h.first, ?_, h.heads, h.main, h.printed, h.listed⟩
    refine knows_update h.filter ?_
    have hk := h.filter k
    have hc := hcv k .receiver
    have hborn : s.ctl.filter k ≠ .unborn := by simp [hf]
    simp only [hf, h.wired.ch hborn, Control.point, Filter.point, Point.Counts,
      Filter.Knows] at hk hc hr
    obtain ⟨v, hv, hl⟩ := eq_take_append (l := s.vals k) (n := r) (by omega)
    obtain rfl := hk.2 v hv
    by_cases hd : (s.var (.filterI k)).tmod (s.ctl.f k).prime ≠ 0
    · rw [if_pos hd]
      exact ⟨_, hl, hd, hk.1⟩
    · rw [if_neg hd]
      show s.vals (k + 1) = pass _ (s.vals k)
      rw [hl, pass_append, pass_of_dvd (by simpa using hd), List.append_nil]
      exact hk.1
  | filterSend k r m hf =>
    refine ⟨hw, hcount, h.gen, h.first, ?_, h.heads, h.main, h.printed, h.listed⟩
    refine knows_update h.filter ?_
    have hk := h.filter k
    have hc := hcv (k + 1) .sender
    simp only [hf, Control.point, Control.sendPoint, Filter.next, Point.Counts,
      Filter.Knows] at hk hc
    obtain ⟨l, hl, hd, hs⟩ := hk
    refine ⟨l, hl, hd, ?_, by rw [← hs, hc]⟩
    show s.vals (k + 1) <+: _
    rw [hs]
    exact List.prefix_append _ _
  | filterNext k r m hf hr =>
    refine ⟨hw, hcount, h.gen, h.first, ?_, h.heads, h.main, h.printed, h.listed⟩
    refine knows_update h.filter ?_
    have hk := h.filter k
    have hborn : s.ctl.filter k ≠ .unborn := by simp [hf]
    simp only [hf, h.wired.chNext hborn, Filter.Knows] at hk hr ⊢
    obtain ⟨l, hl, hd, hs, hm⟩ := hk
    have hlen : (s.vals (k + 1)).length = (pass (s.ctl.f k).prime l ++
        [s.var (.filterI k)]).length := by
      have hle := hs.length_le
      simp only [List.length_append, List.length_singleton] at hle ⊢
      omega
    show s.vals (k + 1) = pass _ (s.vals k)
    rw [hl, pass_append, pass_of_not_dvd hd]
    exact hs.eq_of_length hlen
  | mainReceive i ch hm hi =>
    have hl := h.wired.last
    rw [hm] at hl
    have hround : s.ctl.main.round = i := by rw [hm]; rfl
    have hprinted := h.printed
    rw [hm] at hprinted
    refine ⟨hw, hcount, h.gen, h.first, h.filter, fun k hk => h.heads k ?_, ?_, hprinted,
      h.listed⟩
    · rw [hround]
      exact hk
    · -- nothing has come over the channel yet
      have hborn : s.ctl.filter i = .unborn := (h.wired.born i).2 (Nat.le_of_eq hround)
      have hc := hcv i .receiver
      simp only [Control.point, hborn, Filter.point, hm, Main.point, Point.Counts] at hc
      intro v hv
      simp [perform, List.eq_nil_of_length_eq_zero hc] at hv
  | mainPrint i ch hm hr =>
    have hl := h.wired.last
    rw [hm] at hl
    obtain ⟨rfl, hlt⟩ := hl
    have hround : s.ctl.main.round = ch := by rw [hm]; rfl
    have hprinted := h.printed
    have hmain := h.main
    rw [hm] at hprinted hmain
    -- the number that has come is the one in `prime`
    have hhead : (s.vals ch).head? = some (s.var .prime) := by
      cases hv : s.vals ch with
      | nil => simp [hv] at hr
      | cons v l =>
        have := hmain v (by rw [hv]; rfl)
        rw [this]
        rfl
    refine ⟨hw, hcount, h.gen, h.first, h.filter, fun k hk => h.heads k ?_, hhead, ?_,
      fun k v hk => ?_⟩
    · rw [hround]
      exact hk
    · simp only [List.length_append, List.length_singleton, hprinted]
      rfl
    · rcases Nat.lt_or_ge k s.ctl.printed.length with hlt' | hge
      · rw [List.getElem?_append_left hlt'] at hk
        exact h.listed k v hk
      · rw [List.getElem?_append_right hge] at hk
        have hk0 : k = ch := by
          have hz : k - s.ctl.printed.length = 0 := by
            by_contra hne
            rw [List.getElem?_eq_none (by simp; omega)] at hk
            cases hk
          simp only [Main.printed] at hprinted
          omega
        rw [hk0]
        simp only [hk0, hprinted, Main.printed, Nat.sub_self, List.getElem?_cons_zero] at hk
        exact hhead.trans hk
  | mainSpawn i ch hm =>
    have hl := h.wired.last
    rw [hm] at hl
    obtain ⟨rfl, hlt⟩ := hl
    have hround : s.ctl.main.round = ch := by rw [hm]; rfl
    have hprinted := h.printed
    have hmain := h.main
    rw [hm] at hprinted hmain
    have hborn := (h.wired.born ch).2 (Nat.le_of_eq hround)
    have hborn' := (h.wired.born (ch + 1)).2 (by omega)
    refine ⟨hw, hcount, h.gen, h.first, fun j => ?_, fun k hk => ?_, trivial, hprinted,
      h.listed⟩
    · simp only [perform]
      by_cases hj : j = ch
      · -- the filter has received its prime, and sent nothing
        subst hj
        have hc := hcv j .receiver
        have hc' := hcv (j + 1) .sender
        simp only [Control.point, Control.sendPoint, hborn, Filter.point, Filter.next, hm,
          Main.point, if_true, Point.Counts] at hc hc'
        obtain ⟨v, hv, hl⟩ := eq_take_append (l := s.vals j) (n := 0) hc
        have hd : v = s.var .prime := by
          rw [Main.Knows, List.head?_eq_getElem?, hv] at hmain
          exact Option.some.inj hmain
        rw [Function.update_self, Function.update_self, Filter.Knows,
          List.eq_nil_of_length_eq_zero hc', hl, hd]
        simp [pass]
      · rw [Function.update_of_ne hj, Function.update_of_ne hj]
        exact h.filter j
    · by_cases hj : k = ch
      · rw [hj]
        simp only [Function.update_self]
        exact hmain
      · simp only [Function.update_of_ne hj]
        apply h.heads k
        have hk : k < ch + 1 := hk
        omega
  | mainExit i ch hm hi =>
    have hl := h.wired.last
    rw [hm] at hl
    have hi' : i = rounds := Nat.le_antisymm hl.2 (Nat.le_of_not_lt hi)
    have hround : s.ctl.main.round = rounds := by rw [hm]; exact hi'
    have hprinted := h.printed
    rw [hm] at hprinted
    refine ⟨hw, hcount, h.gen, h.first, h.filter, fun k hk => h.heads k ?_, trivial, ?_,
      h.listed⟩
    · rw [hround]
      exact hk
    · exact hprinted.trans hi'

/-- Who is in the receive that a transfer goes to. -/
theorem receiving (h : s.Inv) {n : Nat} (hr : s.ctl.point c .receiver = .busy n) :
    s.ctl.filter c = .unborn ∧ n = 0 ∧ s.ctl.main = .receiving c c ∨
      (∃ m, s.ctl.filter c = .receiving n m) ∧ 1 ≤ n := by
  have hb := h.wired.begun c
  cases hf : s.ctl.filter c with
  | unborn =>
    have hl := h.wired.last
    simp only [Control.point, hf, Filter.point] at hr
    cases hm : s.ctl.main with
    | receiving i ch =>
      rw [hm] at hl
      obtain ⟨rfl, -⟩ := hl
      simp only [hm, Main.point] at hr
      split at hr
      · rename_i he
        subst he
        exact .inl ⟨rfl, (Point.busy.inj hr).symm, rfl⟩
      · cases hr
    | received i ch =>
      simp only [hm, Main.point] at hr
      split at hr <;> cases hr
    | loop i ch =>
      rw [hm] at hr
      cases hr
    | exited =>
      rw [hm] at hr
      cases hr
  | receiving r m =>
    simp only [Control.point, hf, Filter.point, Point.busy.injEq] at hr
    rw [hf] at hb
    exact .inr ⟨⟨m, by rw [hr]⟩, hr ▸ hb⟩
  | _ => simp [Control.point, hf, Filter.point] at hr

theorem transfer (h : s.Inv) (hx : ∀ e, s.ctl.point c e = .busy (s.vals c).length) :
    (s.transfer c).Inv := by
  have hrecv := h.receiving (hx .receiver)
  have hsend := hx .sender
  have hself : (s.transfer c).vals c = s.vals c ++ [s.var (sender c)] := Function.update_self ..
  have hvals : ∀ j, j ≠ c → (s.transfer c).vals j = s.vals j := fun j hj =>
    Function.update_of_ne hj _ _
  have hvar : ∀ v, v ≠ receiver c (s.vals c).length → (s.transfer c).var v = s.var v :=
    fun v hv => Function.update_of_ne hv _ _
  have hdst : (s.transfer c).var (receiver c (s.vals c).length) = s.var (sender c) :=
    Function.update_self ..
  -- what was the first number of a list still is
  have hhead : ∀ j v, (s.vals j).head? = some v → ((s.transfer c).vals j).head? = some v := by
    intro j v hv
    by_cases hj : j = c
    · subst hj
      rw [hself, List.head?_append, hv]
      rfl
    · rw [hvals j hj]
      exact hv
  refine ⟨h.wired, fun j e => ?_, ?_, ?_, fun k => ?_, fun k hk => hhead k _ (h.heads k hk), ?_,
    h.printed, fun k v hv => hhead k v (h.listed k v hv)⟩
  · -- count
    by_cases hj : j = c
    · subst hj
      rw [show (s.transfer j).ctl = s.ctl from rfl, hx e, hself]
      exact .inr (by simp)
    · rw [hvals j hj]
      exact h.count j e
  · -- gen
    have hi : Var.i ≠ receiver c (s.vals c).length := by
      cases (s.vals c).length <;> simp [receiver]
    rw [hvar _ hi]
    exact h.gen
  · -- first
    by_cases hc : c = 0
    · subst hc
      have hg := h.gen
      have hgen : s.ctl.gen = .sending (s.vals 0).length := by
        cases hg' : s.ctl.gen <;> simp_all [Control.point, Control.sendPoint, Gen.point]
      rw [hgen] at hg
      have hfirst := h.first
      rw [hself, List.length_append, List.length_singleton, List.range_succ, List.map_append,
        ← hfirst, sender, hg]
      rfl
    · rw [hvals 0 (Ne.symm hc)]
      exact h.first
  · -- filter
    have hk := h.filter k
    rw [show (s.transfer c).ctl = s.ctl from rfl]
    by_cases hkc : k + 1 = c
    · -- the filter that sends
      subst hkc
      have hf : ∃ r, s.ctl.filter k = .sending r (s.vals (k + 1)).length := by
        cases hf' : s.ctl.filter k <;> simp_all [Control.point, Control.sendPoint, Filter.next]
      obtain ⟨r, hf⟩ := hf
      have hv : Var.filterI k ≠ receiver (k + 1) (s.vals (k + 1)).length := by
        cases (s.vals (k + 1)).length <;> simp [receiver]
      rw [hf] at hk ⊢
      obtain ⟨l, hl, hd, hs, hm⟩ := hk
      rw [hvals k (by omega), hvar _ hv, hself]
      refine ⟨l, hl, hd, ?_, hm⟩
      obtain ⟨y, hy⟩ := hs
      have hlen := congrArg List.length hy
      have heq := List.append_inj_left hy hm
      rw [heq, sender]
    by_cases hkc' : k = c
    · -- the filter that receives
      subst hkc'
      rcases hrecv with ⟨hf, -, -⟩ | ⟨⟨m, hf⟩, hpos⟩
      · rw [hf]
        trivial
      · rw [hf] at hk ⊢
        obtain ⟨hs, hx'⟩ := hk
        have hv : receiver k (s.vals k).length = .filterI k := by
          obtain ⟨j, hj⟩ := Nat.exists_eq_add_of_le' hpos
          rw [hj]
          rfl
        rw [hv] at hdst
        rw [hvals (k + 1) (by omega), hself, hdst]
        refine ⟨?_, fun v hv => ?_⟩
        · rw [List.take_left]
          rwa [List.take_length] at hs
        · simpa using hv
    · have hv : Var.filterI k ≠ receiver c (s.vals c).length := by
        cases (s.vals c).length
        · simp [receiver]
        · simpa [receiver] using hkc'
      rw [hvals k hkc', hvals (k + 1) hkc, hvar _ hv]
      exact hk
  · -- main
    have hm := h.main
    rw [show (s.transfer c).ctl = s.ctl from rfl]
    rcases hrecv with ⟨-, hlen, hmain⟩ | ⟨⟨m, hf⟩, hpos⟩
    · rw [hmain]
      intro v hv
      rw [hlen] at hdst
      rw [hself, List.eq_nil_of_length_eq_zero hlen] at hv
      exact hdst.trans (by simpa using hv)
    · -- main is not at this channel
      have hv : Var.prime ≠ receiver c (s.vals c).length := by
        obtain ⟨j, hj⟩ := Nat.exists_eq_add_of_le' hpos
        rw [hj]
        simp [receiver]
      have hlt := h.wired.lt (k := c) (by simp [hf])
      rw [hvar _ hv]
      cases hmn : s.ctl.main with
      | receiving i ch =>
        rw [hmn] at hm hlt
        have hne : i ≠ c := fun he => by simp [Main.round, he] at hlt
        intro v hv
        rw [hvals i hne] at hv
        exact hm v hv
      | received i ch =>
        rw [hmn] at hm
        exact hhead i _ hm
      | _ => trivial

theorem step (h : s.Inv) (hs : Net.Step s s') : s'.Inv := by
  cases hs with
  | exec hx => exact h.exec hx
  | transfer c hx => exact h.transfer hx

end Net.Inv

/-- The network before the first step. -/
def Net.start (var : Var → Int) (f : Nat → FilterData) : Net :=
  { vals := fun _ => [], var,
    ctl := { gen := .init, filter := fun _ => .unborn, f, main := .loop 0 0, created := 1,
             printed := [] } }

theorem Net.Inv.start (var : Var → Int) (f : Nat → FilterData) : (Net.start var f).Inv where
  wired := ⟨fun k => iff_of_true rfl (Nat.zero_le k), fun k hk => absurd hk (Nat.not_lt_zero k),
    rfl, ⟨rfl, Nat.zero_le _⟩, fun _ => trivial⟩
  count c e := by
    cases e with
    | sender => cases c <;> rfl
    | receiver => rfl
  gen := trivial
  first := rfl
  filter _ := trivial
  heads k hk := absurd hk (Nat.not_lt_zero k)
  main := trivial
  printed := rfl
  listed k v hv := by simp [Net.start] at hv

end Demo.PrimeSeive
