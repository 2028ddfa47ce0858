import FjxFiber.Channel.Turns
import Mathlib.Algebra.Ring.Int.Defs
import Mathlib.Algebra.Ring.Nat
import Mathlib.Data.Int.DivMod

/-!
# The prime sieve (`demo/prime-seive.c`)

A generator, a filter for each prime found, and the main fiber, joined by channels. `Exec` is their
code, piece by piece: which variables it reads and writes and which channel calls it makes. It does
not say what a variable or a channel is, so that it is run here on the channels of `src/channel.c`
and the memory that their calls copy (`Step`), and in `PrimeSeiveNet` on lists of numbers.

The channels are numbered in the order of their creation, and the calls at each side of a channel
as they follow one another. The first receive on a channel is that of the main fiber, the later
ones those of the filter that is spawned then; the `data` argument of a call is the caller's own
variable (`Act.Passes`).
-/

set_option autoImplicit false

namespace Demo.PrimeSeive

open Lib Channel

/-! ## Variables -/

/-- The variables whose addresses are passed to the channels. -/
inductive Var
  /-- `i` of `generate`. -/
  | i
  /-- `i` of the `k`-th `filter`. -/
  | filterI (k : Nat)
  /-- `prime` of `main`. -/
  | prime
  deriving DecidableEq, Repr

/-- `sizeof(int)`. -/
def sizeofInt : Nat := 4

/-- The `int` at `a`. -/
@[irreducible] def readInt (mem : Memory) (a : Nat) : Int :=
  Int.bmod ((mem a).toNat + 256 * (mem (a + 1)).toNat + 65536 * (mem (a + 2)).toNat +
    16777216 * (mem (a + 3)).toNat : Nat) (2 ^ 32)

def writeInt (mem : Memory) (a : Nat) (v : Int) : Memory := fun b =>
  if a ≤ b ∧ b < a + sizeofInt then UInt8.ofNat ((v % 2 ^ 32).toNat / 256 ^ (b - a)) else mem b

/-- Where the variables lie, on the stacks of their fibers. -/
structure Layout where
  addr : Var → Nat
  apart : ∀ u v, u ≠ v → addr u + sizeofInt ≤ addr v ∨ addr v + sizeofInt ≤ addr u

/-- Whose variable is sent from on channel `c`. -/
def sender : Nat → Var
  | 0 => .i
  | c + 1 => .filterI c

/-- Whose variable the `n`-th receive on channel `c` writes to. -/
def receiver (c : Nat) : Nat → Var
  | 0 => .prime
  | _ + 1 => .filterI c

/-- The `data` arguments of the calls on channel `c`. -/
def Layout.data (L : Layout) (c : Nat) (t : Turn) : Nat :=
  match t.side with
  | .sender => L.addr (sender c)
  | .receiver => L.addr (receiver c t.n)

/-! ## The fibers -/

/-- `struct filter_data`. -/
structure FilterData where
  ch : Nat
  chNext : Nat
  prime : Int
  deriving Repr

/-- Where `generate` is: at the head of its loop, with `n` sends made, or in the `n`-th send. -/
inductive Gen
  | init
  | loop (n : Nat)
  | sending (n : Nat)
  deriving DecidableEq, Repr

/-- Where a `filter` is, with `r` receives made on its channel and `m` sends on the next. -/
inductive Filter
  | unborn
  | loop (r m : Nat)
  | receiving (r m : Nat)
  /-- About to send what it received. -/
  | passing (r m : Nat)
  | sending (r m : Nat)
  deriving DecidableEq, Repr

/-- Where `main` is: the `i` and the `ch` of its loop. -/
inductive Main
  | loop (i ch : Nat)
  | receiving (i ch : Nat)
  /-- The prime has been printed. -/
  | received (i ch : Nat)
  | exited
  deriving DecidableEq, Repr

/-- The fibers, the filters' data, the channels created, and what has been printed. -/
structure Control where
  gen : Gen
  filter : Nat → Filter
  f : Nat → FilterData
  main : Main
  created : Nat
  printed : List Int

/-- What a piece of code does to the variables and the channels. -/
inductive Act
  | none
  | write (v : Var) (x : Int)
  /-- `fiber_channel_create`. -/
  | create (c : Nat)
  /-- The call `t` on channel `c`, with the address of `v`. -/
  | call (c : Nat) (t : Turn) (v : Var)

/-- The number of primes that `main` prints. -/
def rounds : Nat := 100

/-- **The code of the fibers**, on variables with the values `read`; `returned c t` says that the
call `t` on channel `c` has returned. -/
inductive Exec (read : Var → Int) (returned : Nat → Turn → Prop) :
    Control → Act → Control → Prop
  /-- `int i = 2`. -/
  | genInit {p} (h : p.gen = .init) :
      Exec read returned p (.write .i 2) { p with gen := .loop 0 }
  | genSend {p} (n : Nat) (h : p.gen = .loop n) :
      Exec read returned p (.call 0 ⟨.sender, n⟩ .i) { p with gen := .sending n }
  /-- `i++`. -/
  | genNext {p} (n : Nat) (h : p.gen = .sending n) (hr : returned 0 ⟨.sender, n⟩) :
      Exec read returned p (.write .i (read .i + 1)) { p with gen := .loop (n + 1) }
  | filterReceive {p} (k r m : Nat) (h : p.filter k = .loop r m) :
      Exec read returned p (.call (p.f k).ch ⟨.receiver, r⟩ (.filterI k))
        { p with filter := Function.update p.filter k (.receiving r m) }
  /-- `if (i % d->prime)`. -/
  | filterTest {p} (k r m : Nat) (h : p.filter k = .receiving r m)
      (hr : returned (p.f k).ch ⟨.receiver, r⟩) :
      Exec read returned p .none { p with
        filter := Function.update p.filter k
          (if (read (.filterI k)).tmod (p.f k).prime ≠ 0 then .passing (r + 1) m
            else .loop (r + 1) m) }
  | filterSend {p} (k r m : Nat) (h : p.filter k = .passing r m) :
      Exec read returned p (.call (p.f k).chNext ⟨.sender, m⟩ (.filterI k))
        { p with filter := Function.update p.filter k (.sending r m) }
  | filterNext {p} (k r m : Nat) (h : p.filter k = .sending r m)
      (hr : returned (p.f k).chNext ⟨.sender, m⟩) :
      Exec read returned p .none
        { p with filter := Function.update p.filter k (.loop r (m + 1)) }
  | mainReceive {p} (i ch : Nat) (h : p.main = .loop i ch) (hi : i < rounds) :
      Exec read returned p (.call ch ⟨.receiver, 0⟩ .prime) { p with main := .receiving i ch }
  | mainPrint {p} (i ch : Nat) (h : p.main = .receiving i ch)
      (hr : returned ch ⟨.receiver, 0⟩) :
      Exec read returned p .none
        { p with main := .received i ch, printed := p.printed ++ [read .prime] }
  /-- The next channel is created, and the filter spawned. -/
  | mainSpawn {p} (i ch : Nat) (h : p.main = .received i ch) :
      Exec read returned p (.create p.created) { p with
        main := .loop (i + 1) p.created,
        created := p.created + 1,
        f := Function.update p.f i { ch, chNext := p.created, prime := read .prime },
        filter := Function.update p.filter i (.loop 1 0) }
  | mainExit {p} (i ch : Nat) (h : p.main = .loop i ch) (hi : ¬ i < rounds) :
      Exec read returned p .none { p with main := .exited }

/-! ## The program -/

structure State where
  mem : Memory
  ch : Nat → Channel.State Turn
  ctl : Control

namespace State

/-- Channel `c`, in the memory that all channels share. -/
def chan (s : State) (c : Nat) : Channel.State Turn := { s.ch c with mem := s.mem }

def read (L : Layout) (s : State) (v : Var) : Int := readInt s.mem (L.addr v)

def returned (s : State) (c : Nat) (t : Turn) : Prop := ∃ r, (s.ch c).pc t = .done r

/-- The call `t` on channel `c` begins. -/
def call (s : State) (c : Nat) (t : Turn) : State :=
  { s with
    ch := Function.update s.ch c (((s.ch c).goto t t.side.kind.entry).setItem t itemInit) }

def perform (L : Layout) (s : State) : Act → State
  | .none => s
  | .write v x => { s with mem := writeInt s.mem (L.addr v) x }
  | .create c => { s with ch := Function.update s.ch c (.start (turns (L.data c) sizeofInt) s.mem) }
  | .call c t _ => s.call c t

/-- Main has created the first channel and spawned the generator. -/
def start (L : Layout) (mem : Memory) (f : Nat → FilterData) : State :=
  { mem, ch := fun c => .start (turns (L.data c) sizeofInt) mem,
    ctl := { gen := .init, filter := fun _ => .unborn, f, main := .loop 0 0, created := 1,
             printed := [] } }

end State

/-- A call passes the variable that the numbering of the calls says, as all the calls of the program
do (`Exec.passes`). -/
def Act.Passes (L : Layout) : Act → Prop
  | .call c t v => L.data c t = L.addr v
  | _ => True

/-- A fiber runs a piece of its code, or a call on a channel goes on; after `exit` nothing does. -/
inductive Step (L : Layout) : State → State → Prop
  | exec {s} {a : Act} {p : Control} (hx : s.ctl.main ≠ .exited)
      (h : Exec (s.read L) s.returned s.ctl a p) (harg : a.Passes L) :
      Step L s { s.perform L a with ctl := p }
  | chan {s} (c : Nat) (t : Channel.State Turn) (hx : s.ctl.main ≠ .exited)
      (h : Internal (turns (L.data c) sizeofInt) (s.chan c) t) :
      Step L s { s with mem := t.mem, ch := Function.update s.ch c t }

/-- The states of the program under any interleaving of its fibers. -/
abbrev Reached (L : Layout) : State → Prop :=
  Reachable (fun s => ∃ mem f, s = .start L mem f) (Step L)

/-! ## Integers in memory -/

variable {mem : Memory} {a b dst src : Nat} {v : Int}

/-- What is read back is the `int` of the value written. -/
theorem readInt_writeInt (mem : Memory) (a : Nat) (v : Int) :
    readInt (writeInt mem a v) a = Int.bmod v (2 ^ 32) := by
  have hb : ∀ k < 4, writeInt mem a v (a + k) = UInt8.ofNat ((v % 2 ^ 32).toNat / 256 ^ k) := by
    intro k hk
    unfold writeInt sizeofInt
    rw [if_pos (by omega), show a + k - a = k by omega]
  have h0 := hb 0 (by decide)
  have h1 := hb 1 (by decide)
  have h2 := hb 2 (by decide)
  have h3 := hb 3 (by decide)
  have hlt : (v % 2 ^ 32).toNat < 2 ^ 32 := by omega
  unfold readInt
  rw [show writeInt mem a v a = _ from h0, h1, h2, h3]
  simp only [UInt8.toNat_ofNat']
  have hsum : (v % 2 ^ 32).toNat / 256 ^ 0 % 2 ^ 8 + 256 * ((v % 2 ^ 32).toNat / 256 ^ 1 % 2 ^ 8) +
      65536 * ((v % 2 ^ 32).toNat / 256 ^ 2 % 2 ^ 8) +
      16777216 * ((v % 2 ^ 32).toNat / 256 ^ 3 % 2 ^ 8) = (v % 2 ^ 32).toNat := by
    omega
  rw [hsum]
  have hcast : (((v % 2 ^ 32).toNat : Nat) : Int) = v % (2 ^ 32 : Nat) := by omega
  rw [hcast]
  exact Int.emod_bmod v (2 ^ 32)

/-- Only the bytes of an `int` matter to it. -/
theorem readInt_congr {mem' : Memory} (h : ∀ k < sizeofInt, mem' (b + k) = mem (a + k)) :
    readInt mem' b = readInt mem a := by
  unfold readInt
  rw [show mem' b = mem a from h 0 (by decide), h 1 (by decide), h 2 (by decide),
    h 3 (by decide)]

theorem readInt_writeInt_ne (h : b + sizeofInt ≤ a ∨ a + sizeofInt ≤ b) :
    readInt (writeInt mem a v) b = readInt mem b := by
  apply readInt_congr
  intro k hk
  unfold writeInt
  exact if_neg (by omega)

/-- What is read from the target of a transfer is what was in its source. -/
theorem readInt_memcpy : readInt (memcpy dst src sizeofInt mem) dst = readInt mem src :=
  readInt_congr fun _ hk => memcpy_inside mem hk

theorem readInt_memcpy_ne (h : b + sizeofInt ≤ dst ∨ dst + sizeofInt ≤ b) :
    readInt (memcpy dst src sizeofInt mem) b = readInt mem b :=
  readInt_congr fun _ _ => memcpy_outside mem (by omega)

end Demo.PrimeSeive
