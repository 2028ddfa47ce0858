import FjxFiber.Asm.Amd64
import FjxFiber.Pool.Memory

/-!
# The first frame of a fiber (`src/fiber.c`, `fiber_load_entrance`)

`fiberSpawnStackTop` and `fiberSpawnImpl` write the five words that a new fiber starts from, and the
descriptor under them. `fiberSpawnImpl_starts` says that the two do not overlap, that the fiber is
switched to like every saved context, with the operations deferred on it first, and that
`fiber_load_entrance` then calls the entrance and, after it, `fiber_exit`.
-/

set_option autoImplicit false

namespace Asm.Amd64

open X86 X86.Machine

/-! ## The words -/

/-- `align_address`. -/
def alignAddress (addr : Int) : Int := addr / 16 * 16

/-- The size of a structure whose only member is aligned to 16 bytes, and has `size` bytes. -/
def sizeofAligned (size : Int) : Int := (size + 15) / 16 * 16

/-- `sizeof(fjx_fiber)`: a pointer and a list node. -/
def sizeofFiber (sizeofList : Nat) : Int := 8 + sizeofList

/-- `fiber_spawn_stack_top` on the memory whose `stack_top` is `memTop`. -/
def fiberSpawnStackTop : (memTop sched fiberExit entrance data : Int) → (Int → Int) →
    Int × (Int → Int) :=
  Asm.fiberSpawnStackTop 8 fiberLoadEntrance

/-- `fiber_spawn_impl`, up to the enqueue: the descriptor, and the memory. -/
def fiberSpawnImpl (sizeofList : Nat) (memTop sched fiberExit entrance data : Int)
    (mem : Int → Int) : Int × (Int → Int) :=
  let (stackTop, mem) := fiberSpawnStackTop memTop sched fiberExit entrance data mem
  let f := alignAddress stackTop - sizeofAligned (sizeofFiber sizeofList)
  (f, Function.update mem f stackTop)

section
variable {T : Int} (sizeofList : Nat) (sched fiberExit entrance data : Int) (mem : Int → Int)

theorem fiberSpawnStackTop_words :
    Words 8 (fiberSpawnStackTop T sched fiberExit entrance data mem).2 (T - 40)
      [fiberLoadEntrance, entrance, data, fiberExit, sched] :=
  Asm.fiberSpawnStackTop_words (by decide) fiberLoadEntrance sched fiberExit entrance data mem

theorem fiberSpawnImpl_fst (hT : T % 16 = 0) :
    (fiberSpawnImpl sizeofList T sched fiberExit entrance data mem).1 =
      T - 48 - sizeofAligned (sizeofFiber sizeofList) := by
  simp only [fiberSpawnImpl, fiberSpawnStackTop, Asm.fiberSpawnStackTop, alignAddress]
  omega

/-- The descriptor ends below the words, and holds their address. -/
theorem fiberSpawnImpl_words (hT : T % 16 = 0) :
    let r := fiberSpawnImpl sizeofList T sched fiberExit entrance data mem
    r.1 + sizeofFiber sizeofList ≤ T - 40 ∧ r.2 r.1 = T - 40 ∧
      Words 8 r.2 (T - 40) [fiberLoadEntrance, entrance, data, fiberExit, sched] := by
  have hf := fiberSpawnImpl_fst sizeofList sched fiberExit entrance data mem hT
  have hsize : sizeofFiber sizeofList ≤ sizeofAligned (sizeofFiber sizeofList) := by
    unfold sizeofAligned
    omega
  have hpos : 8 ≤ sizeofFiber sizeofList := by
    unfold sizeofFiber
    omega
  refine ⟨by omega, by simp [fiberSpawnImpl, fiberSpawnStackTop, Asm.fiberSpawnStackTop], ?_⟩
  refine (fiberSpawnStackTop_words sched fiberExit entrance data mem).keep (by decide)
    fun b h1 h2 => ?_
  have hne : b ≠ (fiberSpawnImpl sizeofList T sched fiberExit entrance data mem).1 := by omega
  exact Function.update_of_ne hne _ _

end

/-! ## `fiber_load_entrance` -/

variable {callee : State → State} {s : State} {hi : Int}

/-- The entrance is called with its argument. -/
theorem run_fiberLoadEntrance (callee : State → State) (entrance data : Int)
    (hpc : s.pc = fiberLoadEntrance) (hentrance : s.mem (s.reg .sp) = entrance)
    (hdata : s.mem (s.reg .sp + 8) = data) :
    let t := (machine callee).run 3 s
    t.pc = entrance ∧ t.reg .di = data ∧ t.reg .sp = s.reg .sp - 8 ∧
      t.mem = Function.update s.mem (s.reg .sp - 8) (fiberLoadEntrance + 3) ∧
      t.calls = s.calls := by
  rw [run_instr (i := .load .ax .sp 0) 2 (by rw [hpc]; rfl),
    run_instr (i := .load .di .sp 8) 1 (by simp [exec, hpc]; rfl),
    run_instr (i := .callReg .ax) 0 (by simp [exec, hpc]; rfl)]
  simp [run, exec, push, machine, hpc, hentrance, hdata]
  rfl

/-- Back from the entrance, `fiber_exit` is called with the scheduler. -/
theorem run_afterEntrance (callee : State → State) (fiberExit sched : Int)
    (hpc : s.pc = fiberLoadEntrance + 3) (hexit : s.mem (s.reg .sp + 16) = fiberExit)
    (hsched : s.mem (s.reg .sp + 24) = sched) :
    let t := (machine callee).run 3 s
    t.pc = fiberExit ∧ t.reg .di = sched ∧ t.reg .sp = s.reg .sp - 8 ∧ t.calls = s.calls := by
  rw [run_instr (i := .load .ax .sp 16) 2 (by rw [hpc]; rfl),
    run_instr (i := .load .di .sp 24) 1 (by simp [exec, hpc]; rfl),
    run_instr (i := .callReg .ax) 0 (by simp [exec, hpc]; rfl)]
  simp [run, exec, push, machine, hexit, hsched]

/-- The frames of deferred operations keep the alignment of the `stack_top`. -/
theorem History.aligned {mem₀ mem : Int → Int} {top₀ top : Int} {ops : List (Int × Int)}
    (h : History hi mem₀ top₀ mem top ops) (hal : top₀ % 16 = 8) : top % 16 = 8 := by
  induction h with
  | saved => exact hal
  | elsewhere _ _ ih => exact ih
  | deferred _ _ _ ih => omega

/-- **A spawned fiber starts right wherever it is first resumed from.** On a stack whose top `T` is
aligned, the descriptor and the five words that `fiber_spawn` writes do not overlap and lie between
`addr` and `T`. After any history that keeps the words and defers `ops` on them, a call of
`fiber_switch_impl` on another stack whose descriptor holds the new fiber's `stack_top` calls these
operations, the last deferred first, then the entrance with its argument, and, when the entrance
returns, `fiber_exit` with the scheduler; the stack is aligned at every call. -/
theorem fiberSpawnImpl_starts {T addr sched fiberExit entrance data : Int} {sizeofList : Nat}
    {mem : Int → Int} (hT : T % 16 = 0)
    (hfit : addr + 48 + sizeofAligned (sizeofFiber sizeofList) ≤ T) :
    let r := fiberSpawnImpl sizeofList T sched fiberExit entrance data mem
    (addr ≤ r.1 ∧ r.1 + sizeofFiber sizeofList ≤ T - 40 ∧ r.2 r.1 = T - 40 ∧ r.2 r.1 % 16 = 8 ∧
      Words 8 r.2 (T - 40) [fiberLoadEntrance, entrance, data, fiberExit, sched]) ∧
    ∀ (N : State) (top : Int) (ops : List (Int × Int)),
      History T r.2 (T - 40) N.mem top ops →
      Conforms callee T ((machine callee).run 12 N) ops → code entrance = none → Calling N →
      N.mem (N.reg .di) = top → (N.reg .di < top ∨ T ≤ N.reg .di) →
      (N.reg .sp ≤ top ∨ T ≤ N.reg .sp - 64) →
      top % 16 = 8 ∧
      let t := (machine callee).run (15 + 6 * ops.length) N
      t.pc = entrance ∧ t.reg .di = data ∧ t.reg .sp = T - 40 ∧ (t.reg .sp + 8) % 16 = 0 ∧
      (∃ es, t.calls = N.calls ++ es ∧ List.Forall₂ (fun (e : Entry) o =>
        e.target = o.1 ∧ e.reg .di = o.2 ∧ (e.reg .sp + 8) % 16 = 0) es ops) ∧
      (sysv.Returns T t (callee t) →
        let q := (machine callee).run 4 t
        q.pc = fiberExit ∧ q.reg .di = sched ∧ (q.reg .sp + 8) % 16 = 0 ∧
        q.calls = t.calls ++ [t.entry]) := by
  intro r
  obtain ⟨hdesc, htop, hwords⟩ :=
    fiberSpawnImpl_words sizeofList sched fiberExit entrance data mem hT
  have hf : r.1 = T - 48 - sizeofAligned (sizeofFiber sizeofList) :=
    fiberSpawnImpl_fst sizeofList sched fiberExit entrance data mem hT
  refine ⟨⟨by omega, hdesc, htop, by rw [htop]; omega, hwords⟩,
    fun N top ops hh hops hext hN htopN hdi hstack => ⟨hh.aligned (by omega), ?_⟩⟩
  have hresume := run_resume (by omega) (by omega) hh hops hN htopN hdi hstack
  obtain ⟨rsp, rpc, rmem, es, hes, hall⟩ := hresume
  rw [show 15 + 6 * ops.length = 12 + 6 * ops.length + 3 by omega, run_add]
  generalize (machine callee).run (12 + 6 * ops.length) N = u at rsp rpc rmem hes
  -- the five words are there when the switch comes to them
  have hu : Words 8 u.mem (T - 40) [fiberLoadEntrance, entrance, data, fiberExit, sched] :=
    hwords.keep (by decide) fun b h1 h2 => rmem b h1 (by simp at h2; omega)
  obtain ⟨w0, w1, w2, w3, w4, -⟩ := hu
  have hsp : u.reg .sp = T - 40 + 8 := rsp
  obtain ⟨tpc, tdi, tsp, tmem, tcalls⟩ := run_fiberLoadEntrance callee entrance data (s := u)
    (rpc.trans hwords.1) (by rw [hsp]; exact w1) (by rw [hsp]; exact w2)
  generalize (machine callee).run 3 u = t at tpc tdi tsp tmem tcalls
  refine ⟨tpc, tdi, by omega, by omega, ⟨es, by rw [tcalls, hes], hall⟩, fun hret => ?_⟩
  -- the entrance comes back with the words above its return address as they were
  obtain ⟨cpc, csp, -, -, cmem, ccalls⟩ := hret.back (m := machine callee) rfl (by simp [machine])
    (by decide) (by rw [tpc]; exact hext) tsp tmem
  rw [hsp, show sysv.home = 0 from rfl] at cmem
  intro q
  have hq : q = (machine callee).run 3 ((machine callee).run 1 t) := run_add _ 1 3 t
  generalize (machine callee).run 1 t = c at *
  obtain ⟨qpc, qdi, qsp, qcalls⟩ := run_afterEntrance callee fiberExit sched cpc
    (by
      rw [csp, hsp, cmem _ (by omega) (by omega), ← w3]
      congr 1
      omega)
    (by
      rw [csp, hsp, cmem _ (by omega) (by omega), ← w4]
      congr 1
      omega)
  rw [hq]
  exact ⟨qpc, qdi, by omega, qcalls.trans ccalls⟩

/-- A stack that `fiber_memory_create` cuts from a chunk at `addr` has an aligned top, and room for
the descriptor and the words. -/
theorem fiberMemoryCreate_fits (sizeofMem addr sizeofList : Nat)
    (hsize : sizeofAligned (sizeofFiber sizeofList) + sizeofMem + 63 ≤ Pool.stackSize) :
    ((Pool.fiberMemoryCreate sizeofMem addr).stackTop : Int) % 16 = 0 ∧
      (addr : Int) + 48 + sizeofAligned (sizeofFiber sizeofList) ≤
        (Pool.fiberMemoryCreate sizeofMem addr).stackTop := by
  have hpos : 0 ≤ sizeofAligned (sizeofFiber sizeofList) := by
    unfold sizeofAligned sizeofFiber
    omega
  simp only [Pool.fiberMemoryCreate, Pool.alignAddress]
  omega

/-- A fiber is spawned on a stack of the pool, an operation is deferred on it, and it is resumed:
the operation is called, and stores through its argument, then the entrance, then `fiber_exit`. -/
theorem fiberSpawnImpl_starts_run : ∃ N : State,
    let t := (machine storing).run 21 N
    let q := (machine storing).run 4 t
    (t.pc = 70 ∧ t.reg .di = 71) ∧ (q.pc = 80 ∧ q.reg .di = 81) ∧
      q.calls.map (fun e => (e.target, e.reg .di)) = [(50, 60), (70, 71)] := by
  obtain ⟨hT, hfit⟩ : (12224 : Int) % 16 = 0 ∧
      (4096 : Int) + 48 + sizeofAligned (sizeofFiber 16) ≤ 12224 :=
    fiberMemoryCreate_fits 64 4096 16 (by decide)
  obtain ⟨-, h⟩ := @fiberSpawnImpl_starts storing 12224 4096 81 80 70 71 16
    (fun _ => 5000) hT hfit
  generalize fiberSpawnImpl 16 12224 81 80 70 71 (fun _ => 5000) = r at h
  -- the `stack_top` is copied into a descriptor at 30000, and an operation is deferred
  let m₁ := Function.update r.2 30000 12184
  let N : State :=
    { reg := fun q => if q = .sp then 50000 else if q = .di then 30000 else 0,
      mem := fiberAddDeferred 30000 50 60 m₁, pc := fiberSwitchImpl, calls := [] }
  have h1 : m₁ 30000 = 12184 := by simp [m₁]
  have h2 : N.mem (N.reg .di) = 12152 := by simp [N, fiberAddDeferred, Asm.fiberAddDeferred, h1]
  have hist : History 12224 r.2 12184 N.mem 12152 [(50, 60)] := by
    refine History.deferred (History.saved.elsewhere fun a _ ha => ?_) h1 (.inr (by decide))
    exact Function.update_of_ne (by omega) _ _
  have hN : Calling N := ⟨rfl, by simp [N]⟩
  have hdi : 12224 ≤ N.reg .di := by simp [N]
  have hsp : 12224 ≤ N.reg .sp - 64 := by simp [N]
  obtain ⟨hf, qsp, qpc, -, -⟩ :=
    run_switchTo storing (by decide) hist hN h2 (.inr hdi) (.inr hsp)
  have hops : Conforms storing 12224 ((machine storing).run 12 N) [(50, 60)] := by
    refine conforms_of 12152 (fun o ho => ?_) (by decide) (by decide) hf qsp qpc
    obtain rfl := List.mem_singleton.1 ho
    exact ⟨by decide, fun t _ hdi hlo => storing_returns (by omega)⟩
  obtain ⟨-, hstart⟩ :=
    h N 12152 [(50, 60)] hist hops (by decide) hN h2 (.inr hdi) (.inr hsp)
  rw [show 15 + 6 * [((50 : Int), (60 : Int))].length = 21 from rfl] at hstart
  have hcalls : N.calls = [] := rfl
  refine ⟨N, ?_⟩
  generalize (machine storing).run 21 N = t at hstart ⊢
  obtain ⟨tpc, tdi, tsp, -, ⟨es, hes, hall⟩, hexit⟩ := hstart
  obtain ⟨qpc, qdi, -, qcalls⟩ := hexit (storing_returns (by omega))
  refine ⟨⟨tpc, tdi⟩, ⟨qpc, qdi⟩, ?_⟩
  rw [qcalls, hes, hcalls]
  rcases hall with _ | ⟨⟨e1, d1, -⟩, _ | _⟩
  simp [e1, d1, State.entry, tpc, tdi]

end Asm.Amd64
