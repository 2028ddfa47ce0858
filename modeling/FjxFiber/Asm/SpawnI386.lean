import FjxFiber.Asm.I386

/-!
# The first frame of a fiber on i386 (`src/fiber.c`, `src/gas-i386-sysv.s`)

The words of a new fiber hold the address of `fiber_load_entrance`. The file has this label and
exports `fiber_load_entrace`, so that `fiber.c` does not link with it as it stands: this module is
about the file with the `.globl` line repaired. The argument of a call is the word above the return
address, and belongs to the callee: the routine writes the argument over the address of the
function, and the words that it reads after the entrance lie above that.

`fiberSpawnImpl_begins`: the words and the descriptor do not overlap, and whoever switches to the
new fiber first runs the operations deferred on it, then the entrance, then `fiber_exit`.
-/

set_option autoImplicit false

namespace Asm.I386

open X86 X86.Machine

/-! ## The words -/

/-- `align_address`. -/
def alignAddress (addr : Int) : Int := addr / 16 * 16

/-- `sizeof(m)` in `fiber_spawn_impl`: a descriptor, a pointer and a list node, in a structure that
is aligned to 16 bytes. -/
def sizeofAligned (sizeofList : Nat) : Int := (4 + (sizeofList : Int) + 15) / 16 * 16

/-- `fiber_spawn_stack_top` on the memory whose `stack_top` is `memTop`. -/
def fiberSpawnStackTop : (memTop sched fiberExit entrance data : Int) → (Int → Int) →
    Int × (Int → Int) :=
  Asm.fiberSpawnStackTop 4 fiberLoadEntrance

/-- `fiber_spawn_impl`, up to the enqueue: the descriptor, and the memory. -/
def fiberSpawnImpl (sizeofList : Nat) (memTop sched fiberExit entrance data : Int)
    (mem : Int → Int) : Int × (Int → Int) :=
  let (stackTop, mem) := fiberSpawnStackTop memTop sched fiberExit entrance data mem
  let f := alignAddress stackTop - sizeofAligned sizeofList
  (f, Function.update mem f stackTop)

section
variable {T : Int} (sizeofList : Nat) (sched fiberExit entrance data : Int) (mem : Int → Int)

theorem fiberSpawnImpl_fst (hT : T % 16 = 0) :
    (fiberSpawnImpl sizeofList T sched fiberExit entrance data mem).1 =
      T - 32 - sizeofAligned sizeofList := by
  simp only [fiberSpawnImpl, fiberSpawnStackTop, Asm.fiberSpawnStackTop, alignAddress]
  omega

/-- The descriptor ends below the words, and holds their address. -/
theorem fiberSpawnImpl_words (hT : T % 16 = 0) :
    let r := fiberSpawnImpl sizeofList T sched fiberExit entrance data mem
    r.1 + (4 + sizeofList) ≤ T - 20 ∧ r.2 r.1 = T - 20 ∧
      Words 4 r.2 (T - 20) [fiberLoadEntrance, entrance, data, fiberExit, sched] := by
  have hf := fiberSpawnImpl_fst sizeofList sched fiberExit entrance data mem hT
  have hsize : 4 + (sizeofList : Int) ≤ sizeofAligned sizeofList := by
    unfold sizeofAligned
    omega
  refine ⟨by omega, ?_, ?_⟩
  · simp [fiberSpawnImpl, fiberSpawnStackTop, Asm.fiberSpawnStackTop]
  · have hw : Words 4 _ (T - 20) [fiberLoadEntrance, entrance, data, fiberExit, sched] :=
      fiberSpawnStackTop_words (by decide) fiberLoadEntrance sched fiberExit entrance data mem
    apply hw.keep (by decide)
    intro b h1 h2
    have hne : b ≠ (fiberSpawnImpl sizeofList T sched fiberExit entrance data mem).1 := by omega
    exact Function.update_of_ne hne _ _

end

/-! ## `fiber_load_entrance` -/

variable {callee : State → State} {s : State} {hi : Int}

/-- The entrance is called with its argument, which takes the place of its address. -/
theorem run_fiberLoadEntrance (callee : State → State) (entrance data : Int)
    (hpc : s.pc = fiberLoadEntrance) (hentrance : s.mem (s.reg .sp) = entrance)
    (hdata : s.mem (s.reg .sp + 4) = data) :
    let t := (machine callee).run 4 s
    t.pc = entrance ∧ t.reg .sp = s.reg .sp - 4 ∧
      t.mem = Function.update (Function.update s.mem (s.reg .sp) data) (s.reg .sp - 4)
        (fiberLoadEntrance + 4) ∧ t.calls = s.calls := by
  rw [run_instr (i := .load .ax .sp 0) 3 (by rw [hpc]; rfl),
    run_instr (i := .load .cx .sp 4) 2 (by simp [exec, hpc]; rfl),
    run_instr (i := .store .cx .sp 0) 1 (by simp [exec, hpc]; rfl),
    run_instr (i := .callReg .ax) 0 (by simp [exec, hpc]; rfl)]
  simp [run, exec, push, machine, hpc, hentrance, hdata]
  rfl

/-- Back from the entrance, `fiber_exit` is called with the scheduler. -/
theorem run_afterEntrance (callee : State → State) (fiberExit sched : Int)
    (hpc : s.pc = fiberLoadEntrance + 4) (hexit : s.mem (s.reg .sp + 8) = fiberExit)
    (hsched : s.mem (s.reg .sp + 12) = sched) :
    let t := (machine callee).run 4 s
    Called (fiberExit, sched) t.entry ∧ t.calls = s.calls := by
  rw [run_instr (i := .load .ax .sp 8) 3 (by rw [hpc]; rfl),
    run_instr (i := .load .cx .sp 12) 2 (by simp [exec, hpc]; rfl),
    run_instr (i := .store .cx .sp 0) 1 (by simp [exec, hpc]; rfl),
    run_instr (i := .callReg .ax) 0 (by simp [exec, hpc]; rfl)]
  refine ⟨⟨?_, ?_⟩, ?_⟩
  · simp [run, exec, push, State.entry, hexit]
  · have hne : s.reg .sp ≠ s.reg .sp - 4 := by omega
    simp [run, exec, push, machine, State.entry, hsched, hne]
  · simp [run, exec, push]

/-! ## A new fiber -/

/-- **A switch to a saved context**: it calls the operations deferred on it, the last deferred
first, and comes to the address at the saved `stack_top`, with the saved stack as it was. -/
theorem run_resume {mem₀ : Int → Int} {base : Int} {N : State} {ops : List (Int × Int)}
    (hhi : base < hi) (hh : History hi mem₀ base N.mem (N.mem (descriptor N)) ops)
    (hops : Conforms callee hi ((machine callee).run 12 N) ops) (hN : Calling N)
    (haside : descriptor N < N.mem (descriptor N) ∨ hi ≤ descriptor N)
    (hstack : N.reg .sp ≤ N.mem (descriptor N) ∨ hi ≤ N.reg .sp - 24) :
    let r := (machine callee).run (12 + 7 * ops.length) N
    r.reg .sp = base + 4 ∧ r.pc = mem₀ base ∧ (∀ a, base ≤ a → a < hi → r.mem a = mem₀ a) ∧
      ∃ es, r.calls = N.calls ++ es ∧ List.Forall₂ Called ops es := by
  obtain ⟨hf, qsp, qpc, -, qcalls, qmem⟩ := run_switchTo callee hhi hh hN haside hstack
  rw [run_add]
  generalize (machine callee).run 12 N = q at *
  obtain ⟨⟨es, hes, hall⟩, rsp, rpc, -, rmem⟩ := run_frames (s := q) hops hhi hf qsp qpc
  have hrs : ∀ a, base ≤ a → a < hi →
      ((machine callee).run (7 * ops.length) q).mem a = mem₀ a := by
    intro a h1 h2
    rw [rmem a h1 h2, qmem a h1 h2]
  exact ⟨rsp, rpc.trans (hrs base (by omega) hhi), hrs, es, by rw [hes, qcalls], hall⟩

/-- **A spawned fiber starts right on i386**, once the file exports `fiber_load_entrance`. On a
stack whose top `T` is aligned, the descriptor and the five words that `fiber_spawn` writes do not
overlap and lie between `addr` and `T`. After any history that keeps the words and defers `ops` on
them, a call of `fiber_switch_impl` on another stack whose descriptor holds the new fiber's
`stack_top` calls these operations, the last deferred first, then the entrance with its argument at
the top of the stack, and, when the entrance returns (having its argument's word to itself),
`fiber_exit` with the scheduler. -/
theorem fiberSpawnImpl_begins {T addr sched fiberExit entrance data : Int} {sizeofList : Nat}
    {mem : Int → Int} (hT : T % 16 = 0) (hfit : addr + 32 + sizeofAligned sizeofList ≤ T) :
    let r := fiberSpawnImpl sizeofList T sched fiberExit entrance data mem
    (addr ≤ r.1 ∧ r.1 + (4 + sizeofList) ≤ T - 20 ∧ r.2 r.1 = T - 20 ∧
      Words 4 r.2 (T - 20) [fiberLoadEntrance, entrance, data, fiberExit, sched]) ∧
    ∀ (N : State) (ops : List (Int × Int)),
      History T r.2 (T - 20) N.mem (N.mem (descriptor N)) ops →
      Conforms callee T ((machine callee).run 12 N) ops → code entrance = none → Calling N →
      (descriptor N < N.mem (descriptor N) ∨ T ≤ descriptor N) →
      (N.reg .sp ≤ N.mem (descriptor N) ∨ T ≤ N.reg .sp - 24) →
      let t := (machine callee).run (16 + 7 * ops.length) N
      (∃ es, t.calls = N.calls ++ es ∧ List.Forall₂ Called ops es) ∧
        Called (entrance, data) t.entry ∧ t.reg .sp = T - 20 ∧
        (sysv.Returns T t (callee t) →
          let q := (machine callee).run 5 t
          Called (fiberExit, sched) q.entry ∧ q.calls = t.calls ++ [t.entry]) := by
  intro r
  obtain ⟨hdesc, htop, hwords⟩ :=
    fiberSpawnImpl_words sizeofList sched fiberExit entrance data mem hT
  have hf : r.1 = T - 32 - sizeofAligned sizeofList :=
    fiberSpawnImpl_fst sizeofList sched fiberExit entrance data mem hT
  refine ⟨⟨by omega, hdesc, htop, hwords⟩, fun N ops hh hops hext hN haside hstack => ?_⟩
  have hrun := run_resume (by omega) hh hops hN haside hstack
  obtain ⟨rsp, rpc, rmem, es, hes, hall⟩ := hrun
  rw [show 16 + 7 * ops.length = 12 + 7 * ops.length + 4 by omega, run_add]
  generalize (machine callee).run (12 + 7 * ops.length) N = u at rsp rpc rmem hes
  -- the five words are there when the switch comes to them
  have hu : Words 4 u.mem (T - 20) [fiberLoadEntrance, entrance, data, fiberExit, sched] :=
    hwords.keep (by decide) fun b h1 h2 => rmem b h1 (by simp at h2; omega)
  obtain ⟨w0, w1, w2, w3, w4, -⟩ := hu
  have hsp : u.reg .sp = T - 20 + 4 := rsp
  obtain ⟨tpc, tsp, tmem, tcalls⟩ := run_fiberLoadEntrance callee entrance data (s := u)
    (rpc.trans hwords.1) (by rw [hsp]; exact w1) (by rw [hsp]; exact w2)
  generalize (machine callee).run 4 u = t at tpc tsp tmem tcalls
  refine ⟨⟨es, by rw [tcalls, hes], hall⟩, ⟨tpc, ?_⟩, by omega, fun hret => ?_⟩
  · show t.mem (t.reg .sp + 4) = data
    rw [tsp, tmem, show u.reg .sp - 4 + 4 = u.reg .sp by omega, Function.update_of_ne (by omega),
      Function.update_self]
  -- the entrance comes back with the words above its argument as they were
  obtain ⟨cpc, csp, -, -, cmem, ccalls⟩ := hret.back (m := machine callee) rfl (by simp [machine])
    (by decide) (by rw [tpc]; exact hext) tsp tmem
  rw [hsp, show sysv.home = 4 from rfl] at cmem
  have hkeep : ∀ b, T - 12 ≤ b → b < T → ((machine callee).run 1 t).mem b = u.mem b := by
    intro b h1 h2
    rw [cmem b (by omega) h2, Function.update_of_ne (by omega)]
  intro q
  obtain ⟨qcalled, qcalls⟩ := run_afterEntrance callee fiberExit sched cpc
    (by
      rw [csp, hsp, hkeep _ (by omega) (by omega), ← w3]
      congr 1
      omega)
    (by
      rw [csp, hsp, hkeep _ (by omega) (by omega), ← w4]
      congr 1
      omega)
  have hq : q = (machine callee).run 4 ((machine callee).run 1 t) := run_add _ 1 4 t
  rw [hq]
  exact ⟨qcalled, qcalls.trans ccalls⟩

/-- A fiber is spawned, an operation is deferred on it, and it is resumed: the operation is called,
and stores through its argument, then the entrance, which does so too, then `fiber_exit`. -/
theorem fiberSpawnImpl_begins_run : ∃ N : State,
    let t := (machine storing).run 23 N
    let q := (machine storing).run 5 t
    Called (70, 71) t.entry ∧ Called (80, 81) q.entry ∧
      q.calls.map (fun e => (e.target, e.mem (e.reg .sp + 4))) = [(50, 60), (70, 71)] := by
  obtain ⟨-, h⟩ := @fiberSpawnImpl_begins storing 12224 4096 81 80 70 71 8 (fun _ => 5000)
    (by decide) (by decide)
  generalize fiberSpawnImpl 8 12224 81 80 70 71 (fun _ => 5000) = r at h
  -- the `stack_top` is copied into a descriptor at 30000, and an operation is deferred
  let m₁ := Function.update r.2 30000 12204
  let m₂ := fiberAddDeferred 30000 50 60 m₁
  let N : State :=
    { reg := fun q => if q = .sp then 50000 else 0,
      mem := Function.update m₂ 50004 30000, pc := fiberSwitchImpl, calls := [] }
  have h1 : m₁ 30000 = 12204 := by simp [m₁]
  have h2 : descriptor N = 30000 := by simp [descriptor, N]
  have h3 : N.mem (descriptor N) = 12188 := by
    rw [h2]
    simp [N, m₂, fiberAddDeferred, Asm.fiberAddDeferred, h1]
  have hist : History 12224 r.2 12204 N.mem (N.mem (descriptor N)) [(50, 60)] := by
    rw [h3]
    refine History.elsewhere (History.deferred (History.saved.elsewhere fun a _ ha => ?_) h1
      (.inr (by decide))) fun a _ ha => ?_
    · exact Function.update_of_ne (by omega) _ _
    · exact Function.update_of_ne (by omega) _ _
  have h4 : N.reg .sp = 50000 := by simp [N]
  have hN : Calling N := ⟨rfl, .inl (by rw [h2, h4]; decide)⟩
  have haside : 12224 ≤ descriptor N := by rw [h2]; decide
  have hsp : 12224 ≤ N.reg .sp - 24 := by rw [h4]; decide
  obtain ⟨hf, qsp, qpc, -⟩ :=
    run_switchTo storing (by decide) hist hN (.inr haside) (.inr hsp)
  have hops : Conforms storing 12224 ((machine storing).run 12 N) [(50, 60)] :=
    conforms_of 12188 (storing_conforms (by decide) (by decide)) (by decide)
      (Int.le_of_eq h3.symm) hf qsp qpc
  have hrun := h N [(50, 60)] hist hops (by decide) hN (.inr haside) (.inr hsp)
  rw [show 16 + 7 * [((50 : Int), (60 : Int))].length = 23 from rfl] at hrun
  have hcalls : N.calls = [] := rfl
  refine ⟨N, ?_⟩
  generalize (machine storing).run 23 N = t at hrun ⊢
  obtain ⟨⟨es, hes, hall⟩, hcalled, tsp, hexit⟩ := hrun
  have harg : t.mem (t.reg .sp + 4) = 71 := hcalled.arg
  obtain ⟨qcalled, qcalls⟩ := hexit (storing_returns (by omega))
  refine ⟨hcalled, qcalled, ?_⟩
  rw [qcalls, hes, hcalls]
  rcases hall with _ | ⟨⟨e1, d1⟩, _ | _⟩
  have htarget : t.pc = 70 := hcalled.target
  simp [e1, d1, State.entry, htarget, harg]

end Asm.I386
