import FjxFiber.Asm.Deferred

/-!
# The trampolines for Windows on x64 (`src/gas-ms-x64.s`)

A callee owns the four words above its return address. `fiber_load_unaryop` and
`fiber_load_entrance` call with the words that `src/fiber.c` wrote in just that place, and read some
of them afterwards: the word that a deferred operation is to return to by way of
`fiber_load_unaryop`, and `fiber_exit` with its argument. `trampolines_resume` says for which
callees this goes well.
-/

set_option autoImplicit false

namespace Asm.MsX64

open X86 X86.Machine

/-! ## The text -/

def fiberSwitchImpl : Int := 4096
def switchReturn : Int := 4106
def switchResume : Int := 4116
def fiberLoadUnaryop : Int := 4120
def fiberLoadEntrance : Int := 4125

/-- `src/gas-ms-x64.s`. -/
def text : List Instr :=
  [ -- fiber_switch_impl
    .push .bp, .push .di, .push .si, .push .bx, .push .r12, .push .r13, .push .r14, .push .r15,
    .push .cx,
    .call switchResume,
    .pop .cx, .pop .r15, .pop .r14, .pop .r13, .pop .r12, .pop .bx, .pop .si, .pop .di, .pop .bp,
    .ret,
    -- .L_switch_resume
    .load .ax .cx 0, .store .sp .cx 0, .mov .sp .ax, .ret,
    -- fiber_load_unaryop
    .load .ax .sp 0, .load .cx .sp 8, .callReg .ax, .addi .sp 24, .ret,
    -- fiber_load_entrance
    .load .ax .sp 0, .load .cx .sp 8, .callReg .ax,
    .load .ax .sp 16, .load .cx .sp 24, .callReg .ax, .addi .sp 32, .ret ]

def code (a : Int) : Option Instr :=
  if a < fiberSwitchImpl then none else text[(a - fiberSwitchImpl).toNat]?

/-- The Windows convention: the callee-saved registers, and the home space of four words. -/
def win64 : Abi :=
  { word := 8, saved := [.bx, .bp, .di, .si, .r12, .r13, .r14, .r15], home := 32 }

/-- The file, in a process whose other functions are `callee`. -/
def machine (callee : State → State) : Machine := { word := 8, code, callee }

def fiberAddDeferred : (f cleanup data : Int) → (Int → Int) → Int → Int :=
  Asm.fiberAddDeferred 8 fiberLoadUnaryop

def fiberSpawnStackTop :
    (memTop sched fiberExit entrance data : Int) → (Int → Int) → Int × (Int → Int) :=
  Asm.fiberSpawnStackTop 8 fiberLoadEntrance

abbrev Frames : (Int → Int) → Int → Int → List (Int × Int) → Prop :=
  Asm.Frames 8 fiberLoadUnaryop

abbrev History : Int → (Int → Int) → Int → (Int → Int) → Int → List (Int × Int) → Prop :=
  Asm.History 8 fiberLoadUnaryop

/-! ## The switch -/

variable {callee : State → State} {s : State} {hi : Int}

/-- What `fiber_switch_impl` pops, from the top of a saved frame upwards. -/
def savedRegs : List Reg := [.cx, .r15, .r14, .r13, .r12, .bx, .si, .di, .bp]

/-- A call of `fiber_switch_impl(&f->stack_top)`: `f` is neither in the words that the call pushes
nor its return address. -/
structure Calling (M : State) : Prop where
  pc : M.pc = fiberSwitchImpl
  descriptor : M.reg .cx < M.reg .sp - 80 ∨ M.reg .sp + 8 ≤ M.reg .cx

/-- What a call of `fiber_switch_impl` in `M` leaves: its frame lies under `f->stack_top`, and
control is where the `stack_top` that was there says. -/
structure Switched (M s : State) : Prop where
  top : s.mem (M.reg .cx) = M.reg .sp - 80
  frame : Words 8 s.mem (M.reg .sp - 80) (switchReturn :: savedRegs.map M.reg)
  pc : s.pc = s.mem (M.mem (M.reg .cx))
  sp : s.reg .sp = M.mem (M.reg .cx) + 8
  mem : ∀ a, a ≠ M.reg .cx → a < M.reg .sp - 80 ∨ M.reg .sp ≤ a → s.mem a = M.mem a

theorem run_fiberSwitchImpl (callee : State → State) {M : State} (hM : Calling M) :
    Switched M ((machine callee).run 14 M) := by
  obtain ⟨hpc, hcx⟩ := hM
  have hlen : (machine callee).word * (savedRegs.reverse.length : Int) = 72 := rfl
  have h := run_saveSwap (m := machine callee) (r := .cx) (by simp [machine]) (by decide)
    (by decide) savedRegs.reverse (by decide)
    (show CodeAt _ switchResume _ from ⟨rfl, rfl, rfl, rfl, trivial⟩) (s := M)
    (by rw [hpc]; exact ⟨rfl, rfl, rfl, rfl, rfl, rfl, rfl, rfl, rfl, rfl, trivial⟩)
    (by rw [hlen]; simp only [machine]; omega)
  have htop : M.reg .sp - 72 - (machine callee).word = M.reg .sp - 80 := by
    simp only [machine]
    omega
  obtain ⟨etop, eframe, epc, esp, emem, -⟩ := h
  rw [hlen, htop] at etop eframe emem
  rw [hpc] at eframe
  exact ⟨etop, eframe, epc, esp, emem⟩

/-- The return path of `fiber_switch_impl`, on a frame that holds `ws` and a return address. -/
theorem run_switchReturn (callee : State → State) (ws : List Int) (hlen : ws.length = 9)
    (hpc : s.pc = switchReturn) (hws : Words 8 s.mem (s.reg .sp) ws) :
    let s' := (machine callee).run 10 s
    savedRegs.map s'.reg = ws ∧ s'.reg .sp = s.reg .sp + 80 ∧ s'.pc = s.mem (s.reg .sp + 72) ∧
      s'.mem = s.mem := by
  have h := run_popRet (m := machine callee) savedRegs (by decide) (by decide) hlen.symm (s := s)
    (by rw [hpc]; exact ⟨rfl, rfl, rfl, rfl, rfl, rfl, rfl, rfl, rfl, rfl, trivial⟩) hws
  refine ⟨h.reg, ?_, h.pc, h.mem⟩
  rw [show s.reg .sp + 80 = s.reg .sp + 72 + 8 by omega]
  exact h.sp

/-! ## The trampolines -/

/-- `fiber_load_unaryop` and `fiber_load_entrance` call the function at the top of the stack with
the word above it. -/
theorem run_loadCall (callee : State → State) {s : State} {a : Int} (f arg : Int)
    (hpc : s.pc = a) (ha : a = fiberLoadUnaryop ∨ a = fiberLoadEntrance)
    (hf : s.mem (s.reg .sp) = f) (harg : s.mem (s.reg .sp + 8) = arg) :
    let t := (machine callee).run 3 s
    t.pc = f ∧ t.reg .cx = arg ∧ t.reg .sp = s.reg .sp - 8 ∧
      t.mem = Function.update s.mem (s.reg .sp - 8) (a + 3) := by
  obtain ⟨h0, h1, h2⟩ : code a = some (.load .ax .sp 0) ∧ code (a + 1) = some (.load .cx .sp 8) ∧
      code (a + 1 + 1) = some (.callReg .ax) := by
    rcases ha with rfl | rfl <;> exact ⟨rfl, rfl, rfl⟩
  rw [run_instr (i := .load .ax .sp 0) 2 (by rw [hpc]; exact h0),
    run_instr (i := .load .cx .sp 8) 1 (by simp [exec, hpc]; exact h1),
    run_instr (i := .callReg .ax) 0 (by simp [exec, hpc]; exact h2)]
  simp [run, exec, push, machine, hpc, hf, harg]
  rw [show a + 1 + 1 + 1 = a + 3 by omega]

/-- **A deferred operation runs**: `fiber_load_unaryop` calls `op` with `arg`, and goes on at what
`op` has left in the fourth word above its return address. -/
theorem run_fiberLoadUnaryop (callee : State → State) {s : State} (op arg : Int)
    (hpc : s.pc = fiberLoadUnaryop) (hop : s.mem (s.reg .sp) = op)
    (harg : s.mem (s.reg .sp + 8) = arg) (hext : code op = none)
    (habi : ∀ t, t.pc = op → win64.Returns hi t (callee t)) :
    let t := (machine callee).run 3 s
    let r := (machine callee).run 6 s
    (t.pc = op ∧ t.reg .cx = arg ∧ t.reg .sp = s.reg .sp - 8 ∧
      t.mem (t.reg .sp + 32) = s.mem (s.reg .sp + 24)) ∧
    r.reg .sp = s.reg .sp + 32 ∧ r.pc = r.mem (s.reg .sp + 24) ∧
      r.mem (s.reg .sp + 24) = (callee t).mem (t.reg .sp + 32) ∧
      ∀ b, s.reg .sp + 32 ≤ b → b < hi → r.mem b = s.mem b := by
  rw [show 6 = 3 + (1 + 2) from rfl, run_add]
  obtain ⟨tpc, tcx, tsp, tmem⟩ := run_loadCall callee op arg hpc (.inl rfl) hop harg
  generalize (machine callee).run 3 s = t at *
  obtain ⟨upc, usp, -, umem, ukeep, -⟩ := (habi t tpc).back (m := machine callee) rfl
    (by simp [machine]) (by decide) (by rw [tpc]; exact hext) tsp tmem
  have umem : _ = (callee t).mem := umem
  have htop : t.reg .sp + 32 = s.reg .sp + 24 := by omega
  rw [run_add]
  generalize (machine callee).run 1 t = u at *
  rw [run_instr (i := .addi .sp 24) 1 (by rw [upc]; rfl),
    run_instr (i := .ret) 0 (by simp [exec, upc]; rfl)]
  refine ⟨⟨tpc, tcx, tsp, ?_⟩, ?_, ?_, ?_, fun b h1 h2 => ?_⟩
  · rw [htop, tmem, Function.update_of_ne (by omega)]
  · simp [run, exec, pop, machine, usp]
    omega
  · simp [run, exec, pop, usp]
  · rw [htop, ← umem]
    rfl
  · exact ukeep b h1 h2

/-- Back from the entrance, `fiber_load_entrance` calls what it finds two words further up, with the
word above it. -/
theorem run_afterEntrance (callee : State → State) (hpc : s.pc = fiberLoadEntrance + 3) :
    let t := (machine callee).run 3 s
    t.pc = s.mem (s.reg .sp + 16) ∧ t.reg .cx = s.mem (s.reg .sp + 24) := by
  rw [run_instr (i := .load .ax .sp 16) 2 (by rw [hpc]; rfl),
    run_instr (i := .load .cx .sp 24) 1 (by simp [exec, hpc]; rfl),
    run_instr (i := .callReg .ax) 0 (by simp [exec, hpc]; rfl)]
  simp [run, exec, push]

/-! ## Deferred operations -/

/-- From `s`, at the top of the frames of `ops`, each operation is called with its argument, and
resumes what lies under it at the address that `mem` has there. -/
def Resumed (callee : State → State) (mem : Int → Int) : State → Int → List (Int × Int) → Prop
  | _, _, [] => True
  | s, top, (op, arg) :: ops =>
    let t := (machine callee).run 3 s
    let r := (machine callee).run 6 s
    (t.pc = op ∧ t.reg .cx = arg) ∧ (r.pc = mem (top + 32) ∧ r.reg .sp = top + 40) ∧
      Resumed callee mem r (top + 32) ops

/-- From `s`, no operation changes the last word of its home space. -/
def Spared (callee : State → State) : State → List (Int × Int) → Prop
  | _, [] => True
  | s, _ :: ops =>
    let t := (machine callee).run 3 s
    (callee t).mem (t.reg .sp + 32) = t.mem (t.reg .sp + 32) ∧
      Spared callee ((machine callee).run 6 s) ops

/-- The functions are of other object files, and keep the convention. -/
def Conforms (callee : State → State) (hi : Int) (ops : List (Int × Int)) : Prop :=
  ∀ o ∈ ops, code o.1 = none ∧ ∀ t, t.pc = o.1 → win64.Returns hi t (callee t)

/-- Returning to the top of the frames runs the operations down to the saved frame as long as they
spare the last word of their home space, and no longer. -/
theorem run_frames {callee : State → State} {mem : Int → Int} {base top : Int} {s : State}
    {ops : List (Int × Int)} (hops : Conforms callee hi ops) (hhi : base < hi)
    (hf : Frames mem base top ops) (hmem : ∀ a, top + 8 ≤ a → a < hi → s.mem a = mem a)
    (hsp : s.reg .sp = top + 8) (hpc : s.pc = mem top) :
    (Resumed callee mem s top ops ↔ Spared callee s ops) ∧
    (Spared callee s ops → let r := (machine callee).run (6 * ops.length) s
      r.reg .sp = base + 8 ∧ r.pc = mem base ∧
        ∀ a, base + 8 ≤ a → a < hi → r.mem a = mem a) := by
  induction ops generalizing s top with
  | nil =>
    obtain rfl : top = base := hf
    exact ⟨Iff.rfl, fun _ => ⟨hsp, hpc, hmem⟩⟩
  | cons o ops ih =>
    obtain ⟨⟨w0, w1, w2, w3, -⟩, hf⟩ := hf
    obtain ⟨hext, habi⟩ := hops o (by simp)
    have hle : top + 4 * 8 ≤ base := hf.le (by decide)
    obtain ⟨⟨tpc, tcx, tsp, tword⟩, rsp, rpc, rword, rmem⟩ := run_fiberLoadUnaryop callee
      (s := s) o.1 o.2 (hpc.trans w0)
      (by rw [hsp, hmem _ (by omega) (by omega)]; exact w1)
      (by rw [hsp, hmem _ (by omega) (by omega)]; exact w2) hext habi
    rw [hsp, show top + 8 + 24 = top + 32 by omega] at tword rpc rword
    rw [hmem _ (by omega) (by omega)] at tword
    have hlen : 6 * (o :: ops).length = 6 + 6 * ops.length := by
      rw [List.length_cons]
      omega
    rw [hlen, run_add]
    -- the operations under this one run, if it spares the word that it is to return to
    have hih : ((machine callee).run 6 s).mem (top + 32) = mem (top + 32) →
        (Resumed callee mem ((machine callee).run 6 s) (top + 32) ops ↔
          Spared callee ((machine callee).run 6 s) ops) ∧
        (Spared callee ((machine callee).run 6 s) ops →
          let r := (machine callee).run (6 * ops.length) ((machine callee).run 6 s)
          r.reg .sp = base + 8 ∧ r.pc = mem base ∧
            ∀ a, base + 8 ≤ a → a < hi → r.mem a = mem a) := by
      intro hspared
      refine ih (fun o ho => hops o (.tail _ ho)) hf (fun a h1 h2 => ?_) (by omega)
        (rpc.trans hspared)
      rw [rmem a (by omega) h2, hmem a (by omega) h2]
    constructor
    · constructor
      · intro ⟨_, ⟨hret, _⟩, hrest⟩
        have hspared := rpc.symm.trans hret
        exact ⟨by rw [← rword, tword, hspared], (hih hspared).1.1 hrest⟩
      · intro ⟨hword, hrest⟩
        have hspared := rword.trans (hword.trans tword)
        exact ⟨⟨tpc, tcx⟩, ⟨rpc.trans hspared, by omega⟩, (hih hspared).1.2 hrest⟩
    · intro ⟨hword, hrest⟩
      exact (hih (rword.trans (hword.trans tword))).2 hrest

/-! ## The switch back -/

/-- A call in `N` switches to the context at `base`, after a history that keeps the stack above it
up to `hi` as it was in `mem₀` and defers `ops` on it. -/
structure SwitchBack (hi : Int) (mem₀ : Int → Int) (base : Int) (N : State)
    (ops : List (Int × Int)) : Prop where
  history : History hi mem₀ base N.mem (N.mem (N.reg .cx)) ops
  calling : Calling N
  -- `N` is on another stack, and so is its descriptor
  aside : N.reg .cx < N.mem (N.reg .cx) ∨ hi ≤ N.reg .cx
  stack : N.reg .sp ≤ N.mem (N.reg .cx) ∨ hi ≤ N.reg .sp - 80

/-- **A switch back** comes to the saved context, with its stack as it was, if the operations spare
the last word of their home space. -/
theorem run_switchBack (callee : State → State) {mem₀ : Int → Int} {base : Int} {N : State}
    {ops : List (Int × Int)} (hhi : base < hi) (hN : SwitchBack hi mem₀ base N ops)
    (hops : Conforms callee hi ops) :
    let q := (machine callee).run 14 N
    (Resumed callee N.mem q (N.mem (N.reg .cx)) ops ↔ Spared callee q ops) ∧
    (Spared callee q ops → let r := (machine callee).run (6 * ops.length) q
      r.reg .sp = base + 8 ∧ r.pc = mem₀ base ∧
        ∀ a, base + 8 ≤ a → a < hi → r.mem a = mem₀ a) := by
  obtain ⟨hh, hcall, haside, hstack⟩ := hN
  obtain ⟨hframes, hkept⟩ := hh.frames (by decide) hhi
  have hle := hframes.le (by decide)
  have hq := run_fiberSwitchImpl callee hcall
  generalize (machine callee).run 14 N = q at hq ⊢
  -- the switch leaves the saved stack alone
  have hqm : ∀ a, N.mem (N.reg .cx) ≤ a → a < hi → q.mem a = N.mem a :=
    fun a h1 h2 => hq.mem a (by omega) (by omega)
  obtain ⟨hiff, hrun⟩ := run_frames hops hhi hframes (fun a h1 h2 => hqm a (by omega) h2) hq.sp
    (hq.pc.trans (hqm _ (by omega) (by omega)))
  refine ⟨hiff, fun hspared => ?_⟩
  obtain ⟨rsp, rpc, rmem⟩ := hrun hspared
  refine ⟨rsp, rpc.trans (hkept base (by omega) hhi), fun a h1 h2 => ?_⟩
  rw [rmem a h1 h2, hkept a (by omega) h2]

/-- The first operation is called, and the address that is gone on at after it is read from its home
space. -/
theorem run_deferred {mem₀ : Int → Int} {base op arg : Int} {N : State} {ops : List (Int × Int)}
    (hhi : base < hi) (hN : SwitchBack hi mem₀ base N ((op, arg) :: ops))
    (hop : Conforms callee hi [(op, arg)]) :
    let t := (machine callee).run 17 N
    t.pc = op ∧ ((machine callee).run 20 N).pc = (callee t).mem (t.reg .sp + 32) := by
  obtain ⟨hh, hcall, haside, hstack⟩ := hN
  obtain ⟨⟨⟨w0, w1, w2, -⟩, hframes⟩, -⟩ := hh.frames (by decide) hhi
  have hle := hframes.le (by decide)
  obtain ⟨hext, habi⟩ := hop (op, arg) (.head _)
  have hq := run_fiberSwitchImpl callee hcall
  rw [show 17 = 14 + 3 from rfl, show 20 = 14 + 6 from rfl, run_add, run_add]
  generalize (machine callee).run 14 N = q at hq ⊢
  have hqm : ∀ a, N.mem (N.reg .cx) ≤ a → a < hi → q.mem a = N.mem a :=
    fun a h1 h2 => hq.mem a (by omega) (by omega)
  obtain ⟨⟨tpc, -⟩, -, rpc, rword, -⟩ := run_fiberLoadUnaryop callee (s := q) op arg
    (hq.pc.trans ((hqm _ (by omega) (by omega)).trans w0))
    (by rw [hq.sp, hqm _ (by omega) (by omega)]; exact w1)
    (by rw [hq.sp, hqm _ (by omega) (by omega)]; exact w2) hext habi
  exact ⟨tpc, rpc.trans rword⟩

/-- The call that was entered in `M` has returned, with the stack up to `hi` as it was but for the
word that the call wrote. -/
structure Returned (hi : Int) (M r : State) : Prop where
  pc : r.pc = M.mem (M.reg .sp)
  sp : r.reg .sp = M.reg .sp + 8
  saved : ∀ q ∈ win64.saved, r.reg q = M.reg q
  mem : ∀ a, M.reg .sp ≤ a → a < hi → a ≠ M.reg .cx → r.mem a = M.mem a

/-- A saved context that is resumed at its return address returns from the call that saved it. -/
theorem run_returned {M u : State} (hM : Calling M) (hhi : M.reg .sp + 8 ≤ hi)
    (hsp : u.reg .sp = M.reg .sp - 80 + 8)
    (hpc : u.pc = ((machine callee).run 14 M).mem (M.reg .sp - 80))
    (hmem : ∀ a, M.reg .sp - 80 + 8 ≤ a → a < hi → u.mem a = ((machine callee).run 14 M).mem a) :
    Returned hi M ((machine callee).run 10 u) := by
  have hs := run_fiberSwitchImpl callee hM
  have hcx := hM.descriptor
  generalize (machine callee).run 14 M = s at *
  have hw : Words 8 u.mem (u.reg .sp) (savedRegs.map M.reg) := by
    rw [hsp]
    refine hs.frame.2.keep (by decide) fun b h1 h2 => hmem b h1 ?_
    simp [savedRegs] at h2
    omega
  obtain ⟨rregs, rsp, rpc, rmem⟩ := run_switchReturn callee (s := u) (savedRegs.map M.reg)
    rfl (hpc.trans hs.frame.1) hw
  refine ⟨?_, by omega, fun q hq => ?_, fun a h1 h2 h3 => ?_⟩
  · rw [rpc, hsp, show M.reg .sp - 80 + 8 + 72 = M.reg .sp by omega, hmem _ (by omega) (by omega),
      hs.mem _ (by omega) (by omega)]
  · have hsub : ∀ q ∈ win64.saved, q ∈ savedRegs := by decide
    exact List.map_inj_left.1 rregs q (hsub q hq)
  · rw [rmem, hmem a (by omega) h2, hs.mem a h3 (by omega)]

/-- A new fiber that is resumed at its first word calls the entrance, and then whatever the entrance
has left in the last two words of its home space. -/
theorem run_entrance {T sched fiberExit entrance data : Int} {mem : Int → Int} {u : State}
    (hentrance : Conforms callee T [(entrance, data)])
    (hsp : u.reg .sp = T - 40 + 8)
    (hpc : u.pc = (fiberSpawnStackTop T sched fiberExit entrance data mem).2 (T - 40))
    (hmem : ∀ a, T - 40 + 8 ≤ a → a < T →
      u.mem a = (fiberSpawnStackTop T sched fiberExit entrance data mem).2 a) :
    let t := (machine callee).run 3 u
    let v := (machine callee).run 4 t
    (t.pc = entrance ∧ t.reg .cx = data) ∧
      (t.mem (t.reg .sp + 24) = fiberExit ∧ t.mem (t.reg .sp + 32) = sched) ∧
      v.pc = (callee t).mem (t.reg .sp + 24) ∧ v.reg .cx = (callee t).mem (t.reg .sp + 32) := by
  have hwords : Words 8 (fiberSpawnStackTop T sched fiberExit entrance data mem).2 (T - 40)
      [fiberLoadEntrance, entrance, data, fiberExit, sched] :=
    fiberSpawnStackTop_words (by decide) _ _ _ _ _ _
  generalize (fiberSpawnStackTop T sched fiberExit entrance data mem).2 = m at *
  obtain ⟨w0, w1, w2, w3, w4, -⟩ := hwords
  obtain ⟨hext, habi⟩ := hentrance (entrance, data) (by simp)
  obtain ⟨tpc, tcx, tsp, tmem⟩ := run_loadCall callee (s := u) entrance data
    (hpc.trans w0) (.inr rfl) (by rw [hsp, hmem _ (by omega) (by omega)]; exact w1)
    (by rw [hsp, hmem _ (by omega) (by omega)]; exact w2)
  generalize (machine callee).run 3 u = t at *
  obtain ⟨upc, usp, -, umem, -, -⟩ := (habi t tpc).back (m := machine callee) rfl
    (by simp [machine]) (by decide) (by rw [tpc]; exact hext) tsp tmem
  have umem : _ = (callee t).mem := umem
  rw [show 4 = 1 + 3 from rfl]
  dsimp only
  rw [run_add]
  generalize (machine callee).run 1 t = v at *
  obtain ⟨vpc, vcx⟩ := run_afterEntrance callee upc
  refine ⟨⟨tpc, tcx⟩, ⟨?_, ?_⟩, ?_, ?_⟩
  · rw [tmem, Function.update_of_ne (by omega), hmem _ (by omega) (by omega), ← w3]
    congr 1
    omega
  · rw [tmem, Function.update_of_ne (by omega), hmem _ (by omega) (by omega), ← w4]
    congr 1
    omega
  · rw [vpc, umem, show v.reg .sp + 16 = t.reg .sp + 24 by omega]
  · rw [vcx, umem, show v.reg .sp + 24 = t.reg .sp + 32 by omega]

/-- **The trampolines resume what lies under a callee exactly when it leaves the end of its home
space alone.** A switch back to a context that `fiber_switch_impl` has saved calls every operation
deferred on it with its argument, resumes after each of them at the address stored above its frame,
and returns from the call that saved the context with its callee-saved registers, if and only if no
operation changes the fourth word above its return address. A switch to a context that
`fiber_spawn_stack_top` has written calls the entrance with `data`, and when it returns `fiber_exit`
with `sched`, if and only if moreover the entrance changes neither the third nor the fourth word
above its return address. -/
theorem trampolines_resume (callee : State → State) :
    (∀ (hi : Int) (M N : State) (ops : List (Int × Int)), Calling M → M.reg .sp + 8 ≤ hi →
      SwitchBack hi ((machine callee).run 14 M).mem (M.reg .sp - 80) N ops →
      Conforms callee hi ops →
      let q := (machine callee).run 14 N
      (Resumed callee N.mem q (N.mem (N.reg .cx)) ops ∧
        Returned hi M ((machine callee).run (6 * ops.length + 10) q) ↔ Spared callee q ops)) ∧
    (∀ (T sched fiberExit entrance data : Int) (mem : Int → Int) (N : State)
      (ops : List (Int × Int)),
      let words := fiberSpawnStackTop T sched fiberExit entrance data mem
      SwitchBack T words.2 words.1 N ops → Conforms callee T ((entrance, data) :: ops) →
      let q := (machine callee).run 14 N
      let t := (machine callee).run (6 * ops.length + 3) q
      let u := (machine callee).run 4 t
      (Resumed callee N.mem q (N.mem (N.reg .cx)) ops ∧ (t.pc = entrance ∧ t.reg .cx = data) ∧
        u.pc = fiberExit ∧ u.reg .cx = sched ↔
        Spared callee q ops ∧ (callee t).mem (t.reg .sp + 24) = t.mem (t.reg .sp + 24) ∧
          (callee t).mem (t.reg .sp + 32) = t.mem (t.reg .sp + 32))) := by
  constructor
  · intro hi M N ops hM hhi hN hops q
    obtain ⟨hiff, hrun⟩ := run_switchBack callee (by omega) hN hops
    refine ⟨fun h => hiff.1 h.1, fun hspared => ⟨hiff.2 hspared, ?_⟩⟩
    obtain ⟨rsp, rpc, rmem⟩ := hrun hspared
    rw [run_add]
    exact run_returned hM hhi rsp rpc rmem
  · intro T sched fiberExit entrance data mem N ops words hN hops q t u
    have htop : words.1 = T - 40 := rfl
    obtain ⟨hiff, hrun⟩ := run_switchBack callee (by omega) hN fun o ho => hops o (.tail _ ho)
    have hentrance : Conforms callee T [(entrance, data)] := fun o ho => by
      obtain rfl := List.mem_singleton.1 ho
      exact hops _ (.head _)
    have hcall : Spared callee q ops → (t.pc = entrance ∧ t.reg .cx = data) ∧
        (t.mem (t.reg .sp + 24) = fiberExit ∧ t.mem (t.reg .sp + 32) = sched) ∧
        u.pc = (callee t).mem (t.reg .sp + 24) ∧ u.reg .cx = (callee t).mem (t.reg .sp + 32) := by
      intro hspared
      obtain ⟨rsp, rpc, rmem⟩ := hrun hspared
      have ht : t = (machine callee).run 3 ((machine callee).run (6 * ops.length) q) :=
        run_add _ _ _ _
      simp only [u, ht]
      exact run_entrance hentrance rsp rpc rmem
    constructor
    · intro ⟨hresumed, _, hpc, hcx⟩
      have hspared := hiff.1 hresumed
      obtain ⟨-, ⟨hexit, hsched⟩, upc, ucx⟩ := hcall hspared
      exact ⟨hspared, by rw [← upc, hpc, hexit], by rw [← ucx, hcx, hsched]⟩
    · intro ⟨hspared, h24, h32⟩
      obtain ⟨hentered, ⟨hexit, hsched⟩, upc, ucx⟩ := hcall hspared
      exact ⟨hiff.2 hspared, hentered, by rw [upc, h24, hexit], by rw [ucx, h32, hsched]⟩

/-- Operations can be deferred on every context, and it can be switched back to. -/
theorem exists_switchBack (hi base : Int) (hhi : base ≤ hi) (mem : Int → Int)
    (ops : List (Int × Int)) : ∃ N, SwitchBack hi mem base N ops := by
  -- the descriptor lies at `hi`
  have hmem : ∃ m, History hi mem base m (m hi) ops ∧ m hi ≤ hi := by
    induction ops with
    | nil =>
      have hsame : Function.update mem hi base hi = base := Function.update_self _ _ _
      refine ⟨Function.update mem hi base, ?_, by rw [hsame]; exact hhi⟩
      rw [hsame]
      exact History.saved.elsewhere fun a _ ha => Function.update_of_ne (by omega) _ _
    | cons o ops ih =>
      obtain ⟨m, hm, hle⟩ := ih
      have htop : fiberAddDeferred hi o.1 o.2 m hi = m hi - 4 * 8 := Function.update_self _ _ _
      refine ⟨fiberAddDeferred hi o.1 o.2 m, ?_, by omega⟩
      rw [htop]
      exact History.deferred hm rfl (.inr (Int.le_refl _))
  obtain ⟨m, hm, hle⟩ := hmem
  let N : State :=
    { reg := fun q => if q = .sp then hi + 100 else hi, mem := m, pc := fiberSwitchImpl
      calls := [] }
  have hsp : N.reg .sp = hi + 100 := rfl
  have hcx : N.reg .cx = hi := rfl
  exact ⟨N, hm, ⟨rfl, .inl (by omega)⟩, .inr (by omega), .inr (by omega)⟩

/-- A context is switched back to with an operation deferred on it, and a new fiber is started,
where the callees leave their home space alone. -/
theorem trampolines_resume_run : ∃ (callee : State → State) (M N F : State), Calling M ∧
    Returned 1008 M ((machine callee).run 30 N) ∧
      ((machine callee).run 21 F).pc = 80 ∧ ((machine callee).run 21 F).reg .cx = 81 := by
  let callee : State → State := fun t =>
    { t with pc := t.mem (t.reg .sp), reg := Function.update t.reg .sp (t.reg .sp + 8) }
  have hcallee : ∀ hi t, win64.Returns hi t (callee t) := by
    intro hi t
    refine ⟨rfl, by simp [callee, win64], fun q hq => ?_, fun _ _ _ => rfl⟩
    have hne : q ≠ .sp := by
      intro he
      rw [he] at hq
      exact absurd hq (by decide)
    simp [callee, hne]
  have hspares : ∀ t a, (callee t).mem a = t.mem a := fun _ _ => rfl
  clear_value callee
  obtain ⟨hsaved, hspawned⟩ := trampolines_resume callee
  let M : State :=
    { reg := fun q => if q = .sp then 1000 else if q = .cx then 2000 else 7,
      mem := fun a => if a = 1000 then 77 else 5000, pc := fiberSwitchImpl, calls := [] }
  have hM : Calling M := ⟨rfl, by decide⟩
  obtain ⟨N, hN⟩ := exists_switchBack 1008 (M.reg .sp - 80) (by decide)
    ((machine callee).run 14 M).mem [(50, 60)]
  have hret := (hsaved 1008 M N [(50, 60)] hM (by decide) hN (fun o ho => by
    obtain rfl := List.mem_singleton.1 ho
    exact ⟨by decide, fun t _ => hcallee 1008 t⟩)).2 ⟨hspares _ _, trivial⟩
  obtain ⟨F, hF⟩ := exists_switchBack 12224 12184 (by decide)
    (fiberSpawnStackTop 12224 81 80 70 71 fun _ => 5000).2 []
  have hexit := (hspawned 12224 81 80 70 71 (fun _ => 5000) F [] hF (fun o ho => by
    obtain rfl := List.mem_singleton.1 ho
    exact ⟨by decide, fun t _ => hcallee 12224 t⟩)).2 ⟨trivial, hspares _ _, hspares _ _⟩
  rw [← run_add, show 14 + (6 * [((50 : Int), (60 : Int))].length + 10) = 30 from rfl] at hret
  rw [← run_add, ← run_add, show 14 + (6 * ([] : List (Int × Int)).length + 3) + 4 = 21 from rfl]
    at hexit
  exact ⟨callee, M, N, F, hM, hret.2, hexit.2.2.1, hexit.2.2.2⟩

/-- A callee clears its home space: after a deferred operation control does not come back to
`fiber_switch_impl`, and after the entrance it does not come to `fiber_exit`. -/
theorem trampolines_lost : ∃ (callee : State → State) (M N F : State),
    (∀ hi t, win64.Returns hi t (callee t)) ∧
    (Calling M ∧ SwitchBack 1008 ((machine callee).run 14 M).mem (M.reg .sp - 80) N [(50, 60)] ∧
      ((machine callee).run 17 N).pc = 50 ∧ N.mem (M.reg .sp - 80) = switchReturn ∧
      ((machine callee).run 20 N).pc = 0 ∧
      ¬ Resumed callee N.mem ((machine callee).run 14 N) (N.mem (N.reg .cx)) [(50, 60)]) ∧
    SwitchBack 12224 (fiberSpawnStackTop 12224 81 80 70 71 fun _ => 5000).2 12184 F [] ∧
      ((machine callee).run 17 F).pc = 70 ∧ ((machine callee).run 21 F).pc = 0 := by
  let callee : State → State := fun t =>
    { t with
      pc := t.mem (t.reg .sp), reg := Function.update t.reg .sp (t.reg .sp + 8)
      mem := fun a => if t.reg .sp + 8 ≤ a ∧ a < t.reg .sp + 40 then 0 else t.mem a }
  have hcallee : ∀ hi t, win64.Returns hi t (callee t) := by
    intro hi t
    refine ⟨rfl, by simp [callee, win64], fun q hq => ?_, fun a ha _ => if_neg ?_⟩
    · have hne : q ≠ .sp := by
        intro he
        rw [he] at hq
        exact absurd hq (by decide)
      simp [callee, hne]
    · simp only [win64] at ha
      omega
  have hcleared : ∀ t a, t.reg .sp + 8 ≤ a → a < t.reg .sp + 40 → (callee t).mem a = 0 :=
    fun t a h1 h2 => if_pos ⟨h1, h2⟩
  clear_value callee
  have hconforms : ∀ hi o, code o.1 = none → Conforms callee hi [o] := by
    intro hi o ho o' ho'
    obtain rfl := List.mem_singleton.1 ho'
    exact ⟨ho, fun t _ => hcallee hi t⟩
  let M : State :=
    { reg := fun q => if q = .sp then 1000 else if q = .cx then 2000 else 7,
      mem := fun a => if a = 1000 then 77 else 5000, pc := fiberSwitchImpl, calls := [] }
  have hM : Calling M := ⟨rfl, by decide⟩
  obtain ⟨N, hN⟩ := exists_switchBack 1008 (M.reg .sp - 80) (by decide)
    ((machine callee).run 14 M).mem [(50, 60)]
  obtain ⟨F, hF⟩ := exists_switchBack 12224 12184 (by decide)
    (fiberSpawnStackTop 12224 81 80 70 71 fun _ => 5000).2 []
  refine ⟨callee, M, N, F, hcallee, ⟨hM, hN, ?_⟩, hF, ?_⟩
  · have hret := (run_fiberSwitchImpl callee hM).frame.1
    obtain ⟨tpc, rpc⟩ := run_deferred (by decide) hN (hconforms 1008 (50, 60) (by decide))
    obtain ⟨⟨-, htop⟩, hkept⟩ := hN.history.frames (by decide) (by decide)
    have hstored := (hkept _ (Int.le_refl _) (by decide)).trans hret
    have hzero := rpc.trans (hcleared _ _ (by omega) (by omega))
    refine ⟨tpc, hstored, hzero, fun hr => ?_⟩
    have hreturned : ((machine callee).run 20 N).pc = N.mem (N.mem (N.reg .cx) + 4 * 8) := by
      rw [show 20 = 14 + 6 from rfl, run_add]
      exact hr.2.1.1
    rw [hzero, show N.mem (N.reg .cx) + 4 * 8 = M.reg .sp - 80 from htop, hstored] at hreturned
    exact absurd hreturned (by decide)
  · obtain ⟨-, hrun⟩ := run_switchBack callee (by decide) hF
      fun o ho => absurd ho List.not_mem_nil
    obtain ⟨rsp, rpc, rmem⟩ := hrun trivial
    obtain ⟨⟨tpc, -⟩, -, vpc, -⟩ :=
      run_entrance (hconforms 12224 (70, 71) (by decide)) rsp rpc rmem
    simp only [← run_add, List.length_nil, Nat.mul_zero, Nat.add_zero] at tpc vpc
    exact ⟨tpc, vpc.trans (hcleared _ _ (by omega) (by omega))⟩

end Asm.MsX64
