import FjxFiber.Asm.Deferred

/-!
# The amd64 context switch (`src/gas-amd64-sysv.s`, `src/fiber.c`)

`text` is the assembly file and `fiberAddDeferred` the memory writes of `fiber_add_deferred`.
`fiberSwitchImpl_transparent`: a context that `fiber_switch_impl` suspends and that is switched
back to after any history in which its saved frame is kept and operations are deferred on it runs
these operations, the last deferred first, and returns from the suspended call.
-/

set_option autoImplicit false

namespace Asm.Amd64

open X86 X86.Machine

/-! ## The text -/

def fiberSwitchImpl : Int := 4096
def switchReturn : Int := 4104
def switchResume : Int := 4112
def fiberLoadUnaryop : Int := 4116
def fiberLoadEntrance : Int := 4121

/-- `src/gas-amd64-sysv.s`. -/
def text : List Instr :=
  [ -- fiber_switch_impl
    .push .bp, .push .ax, .push .bx, .push .r12, .push .r13, .push .r14, .push .r15,
    .call switchResume,
    .pop .r15, .pop .r14, .pop .r13, .pop .r12, .pop .bx, .pop .ax, .pop .bp,
    .ret,
    -- .L_switch_resume
    .load .ax .di 0, .store .sp .di 0, .mov .sp .ax, .ret,
    -- fiber_load_unaryop
    .load .ax .sp 0, .load .di .sp 8, .callReg .ax, .addi .sp 24, .ret,
    -- fiber_load_entrance
    .load .ax .sp 0, .load .di .sp 8, .callReg .ax,
    .load .ax .sp 16, .load .di .sp 24, .callReg .ax, .addi .sp 32, .ret ]

def code (a : Int) : Option Instr :=
  if a < fiberSwitchImpl then none else text[(a - fiberSwitchImpl).toNat]?

/-- The System V convention: the callee-saved registers, and no home space. -/
def sysv : Abi := { word := 8, saved := [.bx, .bp, .r12, .r13, .r14, .r15], home := 0 }

/-- The file, in a process whose other functions are `callee`. -/
def machine (callee : State → State) : Machine := { word := 8, code, callee }

def fiberAddDeferred : (f cleanup data : Int) → (Int → Int) → Int → Int :=
  Asm.fiberAddDeferred 8 fiberLoadUnaryop

abbrev Frames : (Int → Int) → Int → Int → List (Int × Int) → Prop :=
  Asm.Frames 8 fiberLoadUnaryop

abbrev History : Int → (Int → Int) → Int → (Int → Int) → Int → List (Int × Int) → Prop :=
  Asm.History 8 fiberLoadUnaryop

/-- The operations keep the convention in the calls that `fiber_load_unaryop` makes of them. -/
abbrev Conforms (callee : State → State) (hi : Int) : State → List (Int × Int) → Prop :=
  Asm.Conforms (machine callee) sysv hi 3 6

/-! ## The three routines -/

variable {callee : State → State} {s : State} {hi : Int}

/-- What `fiber_switch_impl` pops, from the top of a saved frame upwards. -/
def savedRegs : List Reg := [.r15, .r14, .r13, .r12, .bx, .ax, .bp]

/-- What a call of `fiber_switch_impl` in `M` leaves: its frame lies under `f->stack_top`, and
control is at the context that was there. -/
structure Switched (M s : State) : Prop where
  top : s.mem (M.reg .di) = M.reg .sp - 64
  frame : Words 8 s.mem (M.reg .sp - 64) (switchReturn :: savedRegs.map M.reg)
  pc : s.pc = s.mem (M.mem (M.reg .di))
  sp : s.reg .sp = M.mem (M.reg .di) + 8
  mem : ∀ a, a ≠ M.reg .di → a < M.reg .sp - 64 ∨ M.reg .sp ≤ a → s.mem a = M.mem a
  calls : s.calls = M.calls

/-- `.L_switch_resume` swaps the stack pointer with the word at `rdi`, and returns there. -/
theorem run_fiberSwitchImpl (callee : State → State) {M : State} (hpc : M.pc = fiberSwitchImpl)
    (hdi : M.reg .di < M.reg .sp - 64 ∨ M.reg .sp ≤ M.reg .di) :
    Switched M ((machine callee).run 12 M) := by
  have hlen : (machine callee).word * (savedRegs.reverse.length : Int) = 56 := rfl
  have h := run_saveSwap (m := machine callee) (r := .di) (by simp [machine]) (by decide)
    (by decide) savedRegs.reverse (by decide)
    (show CodeAt _ switchResume _ from ⟨rfl, rfl, rfl, rfl, trivial⟩) (s := M)
    (by rw [hpc]; exact ⟨rfl, rfl, rfl, rfl, rfl, rfl, rfl, rfl, trivial⟩)
    (by rw [hlen]; simp only [machine]; omega)
  have htop : M.reg .sp - 56 - (machine callee).word = M.reg .sp - 64 := by
    simp only [machine]
    omega
  obtain ⟨etop, eframe, epc, esp, emem, ecalls⟩ := h
  rw [hlen, htop] at etop eframe emem
  rw [hpc] at eframe
  exact ⟨etop, eframe, epc, esp, emem, ecalls⟩

/-- The return path of `fiber_switch_impl`, on a frame that holds `ws` and a return address. -/
theorem run_switchReturn (callee : State → State) {ws : List Int} (hlen : ws.length = 7)
    (hpc : s.pc = switchReturn) (hws : Words 8 s.mem (s.reg .sp) ws) :
    let s' := (machine callee).run 8 s
    savedRegs.map s'.reg = ws ∧ s'.reg .sp = s.reg .sp + 64 ∧ s'.pc = s.mem (s.reg .sp + 56) ∧
      s'.mem = s.mem ∧ s'.calls = s.calls := by
  have h := run_popRet (m := machine callee) savedRegs (by decide) (by decide) hlen.symm (s := s)
    (by rw [hpc]; exact ⟨rfl, rfl, rfl, rfl, rfl, rfl, rfl, rfl, trivial⟩) hws
  refine ⟨h.reg, ?_, h.pc, h.mem, h.calls⟩
  rw [show s.reg .sp + 64 = s.reg .sp + 56 + 8 by omega]
  exact h.sp

/-- `fiber_load_unaryop` calls the operation at the top of the stack with the word above it. -/
theorem run_enterUnaryop (callee : State → State) {s : State} (op arg : Int)
    (hpc : s.pc = fiberLoadUnaryop) (hop : s.mem (s.reg .sp) = op)
    (harg : s.mem (s.reg .sp + 8) = arg) :
    let t := (machine callee).run 3 s
    t.pc = op ∧ t.reg .sp = s.reg .sp - 8 ∧ t.reg .di = arg ∧
      t.mem = Function.update s.mem (s.reg .sp - 8) (fiberLoadUnaryop + 3) ∧
      t.calls = s.calls := by
  rw [run_instr (i := .load .ax .sp 0) 2 (by rw [hpc]; rfl),
    run_instr (i := .load .di .sp 8) 1 (by simp [exec, hpc]; rfl),
    run_instr (i := .callReg .ax) 0 (by simp [exec, hpc]; rfl)]
  simp [run, exec, push, machine, hpc, hop, harg]
  rfl

/-- **A deferred operation runs**: `fiber_load_unaryop` calls `op` with `arg` and an aligned stack,
and returns to the word above its frame. -/
theorem run_fiberLoadUnaryop (op arg : Int) (hpc : s.pc = fiberLoadUnaryop)
    (hop : s.mem (s.reg .sp) = op) (harg : s.mem (s.reg .sp + 8) = arg) (hext : code op = none)
    (habi : sysv.Returns hi ((machine callee).run 3 s) (callee ((machine callee).run 3 s))) :
    let s' := (machine callee).run 6 s
    ∃ e : Entry, s'.calls = s.calls ++ [e] ∧ e.target = op ∧ e.reg .di = arg ∧
      e.reg .sp = s.reg .sp - 8 ∧ s'.reg .sp = s.reg .sp + 32 ∧
      s'.pc = s'.mem (s.reg .sp + 24) ∧ ∀ a, s.reg .sp ≤ a → a < hi → s'.mem a = s.mem a := by
  rw [show 6 = 3 + (1 + 2) from rfl, run_add]
  obtain ⟨tpc, tsp, tdi, tmem, tcalls⟩ := run_enterUnaryop callee op arg hpc hop harg
  generalize (machine callee).run 3 s = t at *
  -- it comes back to the instruction after the call
  obtain ⟨upc, usp, -, -, umem, ucalls⟩ := habi.back (m := machine callee) rfl
    (by simp [machine]) (by decide) (by rw [tpc]; exact hext) tsp tmem
  rw [run_add]
  generalize (machine callee).run 1 t = u at *
  rw [run_instr (i := .addi .sp 24) 1 (by rw [upc]; rfl),
    run_instr (i := .ret) 0 (by simp [exec, upc]; rfl)]
  refine ⟨t.entry, ?_, tpc, tdi, tsp, ?_, ?_, fun a ha hahi => ?_⟩
  · simp [run, exec, pop, ucalls, tcalls]
  · simp [run, exec, pop, machine, usp]
    omega
  · simp [run, exec, pop, usp]
  · exact umem a (by simpa [sysv] using ha) hahi

/-- Returning to the top of the frames runs the operations, each of them once and the top one
first, and ends at the saved frame. -/
theorem run_frames {base : Int} {ops : List (Int × Int)} (hal : (base + 8) % 16 = 0)
    (hops : Conforms callee hi s ops) (hhi : base < hi) {top : Int}
    (hf : Frames s.mem base top ops) (hsp : s.reg .sp = top + 8) (hpc : s.pc = s.mem top) :
    let s' := (machine callee).run (6 * ops.length) s
    (∃ es, s'.calls = s.calls ++ es ∧ List.Forall₂ (fun (e : Entry) o =>
      e.target = o.1 ∧ e.reg .di = o.2 ∧ (e.reg .sp + 8) % 16 = 0) es ops) ∧
    s'.reg .sp = base + 8 ∧ s'.pc = s'.mem base ∧
    ∀ a, base ≤ a → a < hi → s'.mem a = s.mem a := by
  induction ops generalizing s top with
  | nil =>
    obtain rfl : top = base := hf
    exact ⟨⟨[], by simp [run], .nil⟩, hsp, hpc, fun _ _ _ => rfl⟩
  | cons o ops ih =>
    have hheight := Asm.Frames.height hf
    obtain ⟨⟨w0, w1, w2, w3, -⟩, hf⟩ := hf
    obtain ⟨⟨hext, habi⟩, hops⟩ := hops
    have hle := hf.le (by decide)
    obtain ⟨e, ecalls, etarget, edi, esp, rsp, rpc, rmem⟩ := run_fiberLoadUnaryop o.1 o.2
      (hpc.trans w0) (by rw [hsp]; exact w1) (by rw [hsp]; exact w2) hext habi
    rw [List.length_cons, Nat.mul_succ, Nat.add_comm, run_add]
    generalize (machine callee).run 6 s = r at *
    obtain ⟨⟨es, hes, hall⟩, h2, h3, h4⟩ := ih (s := r) hops
      (hf.keep (by decide) fun a h1 h2 => rmem a (by omega) (by omega)) (by omega)
      (by rw [rpc, hsp, Int.add_assoc]; rfl)
    have hal' : (e.reg .sp + 8) % 16 = 0 := by omega
    refine ⟨⟨e :: es, by rw [hes, ecalls]; simp, .cons ⟨etarget, edi, hal'⟩ hall⟩, h2, h3, ?_⟩
    exact fun a h5 h6 => (h4 a h5 h6).trans (rmem a (by omega) h6)

/-- Operations keep the convention in the calls that the run makes of them if they do whenever they
are called with their argument and with a stack above the frames. -/
theorem conforms_of (lo : Int) {base : Int} {ops : List (Int × Int)}
    (hops : ∀ o ∈ ops, code o.1 = none ∧ ∀ t : State, t.pc = o.1 → t.reg .di = o.2 →
      lo ≤ t.reg .sp → sysv.Returns hi t (callee t))
    (hhi : base < hi) {top : Int} (hlo : lo ≤ top) (hf : Frames s.mem base top ops)
    (hsp : s.reg .sp = top + 8) (hpc : s.pc = s.mem top) : Conforms callee hi s ops := by
  induction ops generalizing s top with
  | nil => trivial
  | cons o ops ih =>
    obtain ⟨⟨w0, w1, w2, w3, -⟩, hf⟩ := hf
    obtain ⟨hext, habi⟩ := hops o (by simp)
    have hle := hf.le (by decide)
    have hentry := hpc.trans w0
    have hop : s.mem (s.reg .sp) = o.1 := by rw [hsp]; exact w1
    have harg : s.mem (s.reg .sp + 8) = o.2 := by rw [hsp]; exact w2
    obtain ⟨tpc, tsp, tdi, -, -⟩ := run_enterUnaryop callee o.1 o.2 hentry hop harg
    have hret := habi _ tpc tdi (by omega)
    refine ⟨⟨hext, hret⟩, ?_⟩
    obtain ⟨e, -, -, -, -, rsp, rpc, rmem⟩ :=
      run_fiberLoadUnaryop o.1 o.2 hentry hop harg hext hret
    generalize (machine callee).run 6 s = r at *
    have hlo' : lo ≤ top + 4 * 8 := by omega
    exact ih (s := r) (fun o ho => hops o (.tail _ ho)) hlo'
      (hf.keep (by decide) fun a h1 h2 => rmem a (by omega) (by omega)) (by omega)
      (by rw [rpc, hsp, Int.add_assoc]; rfl)

/-! ## The switch there and back -/

/-- A call of `fiber_switch_impl(&f->stack_top)`: `f` is neither in the words that the call pushes
nor its return address. -/
structure Calling (s : State) : Prop where
  pc : s.pc = fiberSwitchImpl
  descriptor : s.reg .di < s.reg .sp - 64 ∨ s.reg .sp + 8 ≤ s.reg .di

/-- After a switch to a context with `ops` deferred on it, their frames are at the top. -/
theorem run_switchTo {mem₀ : Int → Int} {base top : Int} {N : State} {ops : List (Int × Int)}
    (callee : State → State) (hhi : base < hi) (hh : History hi mem₀ base N.mem top ops)
    (hN : Calling N) (htop : N.mem (N.reg .di) = top) (hdi : N.reg .di < top ∨ hi ≤ N.reg .di)
    (hstack : N.reg .sp ≤ top ∨ hi ≤ N.reg .sp - 64) :
    let q := (machine callee).run 12 N
    Frames q.mem base top ops ∧ q.reg .sp = top + 8 ∧ q.pc = q.mem top ∧ q.calls = N.calls ∧
      ∀ a, base ≤ a → a < hi → q.mem a = mem₀ a := by
  obtain ⟨hf, hkept⟩ := hh.frames (by decide) hhi
  have hle := hf.le (by decide)
  -- the switch leaves the saved stack alone
  have hq := run_fiberSwitchImpl callee hN.pc (by have := hN.descriptor; omega)
  generalize (machine callee).run 12 N = q at hq
  have hqm : ∀ a, top ≤ a → a < hi → q.mem a = N.mem a := by
    intro a h1 h2
    exact hq.mem a (by omega) (by omega)
  refine ⟨hf.keep (by decide) fun a h1 h2 => hqm a h1 (by omega), by rw [hq.sp, htop],
    by rw [hq.pc, htop], hq.calls, fun a h1 h2 => ?_⟩
  rw [hqm a (by omega) h2, hkept a h1 h2]

/-- **A switch to a saved context**: it calls the operations deferred on it, the last deferred
first, each of them once with its argument and an aligned stack, and comes to the address at the
saved `stack_top`, with the saved stack as it was. -/
theorem run_resume {mem₀ : Int → Int} {base top : Int} {N : State} {ops : List (Int × Int)}
    (hal : (base + 8) % 16 = 0) (hhi : base < hi) (hh : History hi mem₀ base N.mem top ops)
    (hops : Conforms callee hi ((machine callee).run 12 N) ops)
    (hN : Calling N) (htop : N.mem (N.reg .di) = top) (hdi : N.reg .di < top ∨ hi ≤ N.reg .di)
    (hstack : N.reg .sp ≤ top ∨ hi ≤ N.reg .sp - 64) :
    let r := (machine callee).run (12 + 6 * ops.length) N
    r.reg .sp = base + 8 ∧ r.pc = mem₀ base ∧ (∀ a, base ≤ a → a < hi → r.mem a = mem₀ a) ∧
    ∃ es, r.calls = N.calls ++ es ∧ List.Forall₂ (fun (e : Entry) o =>
      e.target = o.1 ∧ e.reg .di = o.2 ∧ (e.reg .sp + 8) % 16 = 0) es ops := by
  obtain ⟨hf, qsp, qpc, qcalls, qmem⟩ := run_switchTo callee hhi hh hN htop hdi hstack
  rw [run_add]
  generalize (machine callee).run 12 N = q at *
  -- the operations run
  obtain ⟨⟨es, hes, hall⟩, rsp, rpc, rmem⟩ := run_frames (s := q) hal hops hhi hf qsp qpc
  have hrs : ∀ a, base ≤ a → a < hi →
      ((machine callee).run (6 * ops.length) q).mem a = mem₀ a := by
    intro a h1 h2
    rw [rmem a h1 h2, qmem a h1 h2]
  exact ⟨rsp, rpc.trans (hrs base (by omega) hhi), hrs, es, by rw [hes, qcalls], hall⟩

/-- The call that was entered in `M` has returned, with the stack up to `hi` as it was but for the
word that the call wrote. -/
structure Returned (hi : Int) (M r : State) : Prop where
  pc : r.pc = M.mem (M.reg .sp)
  sp : r.reg .sp = M.reg .sp + 8
  saved : ∀ q ∈ sysv.saved, r.reg q = M.reg q
  mem : ∀ a, M.reg .sp ≤ a → a < hi → a ≠ M.reg .di → r.mem a = M.mem a

theorem Returned.of_map {M r : State} (hpc : r.pc = M.mem (M.reg .sp))
    (hsp : r.reg .sp = M.reg .sp + 8) (hreg : savedRegs.map r.reg = savedRegs.map M.reg)
    (hmem : ∀ a, M.reg .sp ≤ a → a < hi → a ≠ M.reg .di → r.mem a = M.mem a) :
    Returned hi M r := by
  refine ⟨hpc, hsp, fun q hq => List.map_inj_left.1 hreg q ?_, hmem⟩
  have hsub : ∀ q ∈ sysv.saved, q ∈ savedRegs := by decide
  exact hsub q hq

/-- **The amd64 context switch is transparent under deferred operations.** A call of
`fiber_switch_impl` on an aligned stack leaves its own context at `f->stack_top` and continues at
the context that was there. After any history that keeps the saved stack up to `hi` and defers
`ops` on it, a call of `fiber_switch_impl` on another stack whose descriptor holds the saved
`stack_top` calls these operations, the last deferred first, each of them once with its argument
and an aligned stack, and then returns from the first call. -/
theorem fiberSwitchImpl_transparent {M : State} (hM : Calling M)
    (hal : (M.reg .sp + 8) % 16 = 0) (hhi : M.reg .sp + 8 ≤ hi) :
    let s := (machine callee).run 12 M
    (s.mem (M.reg .di) = M.reg .sp - 64 ∧ s.reg .sp = M.mem (M.reg .di) + 8 ∧
      s.pc = s.mem (M.mem (M.reg .di))) ∧
    ∀ (N : State) (top : Int) (ops : List (Int × Int)),
      History hi s.mem (M.reg .sp - 64) N.mem top ops →
      Conforms callee hi ((machine callee).run 12 N) ops →
      Calling N → N.mem (N.reg .di) = top → (N.reg .di < top ∨ hi ≤ N.reg .di) →
      (N.reg .sp ≤ top ∨ hi ≤ N.reg .sp - 64) →
      let r := (machine callee).run (20 + 6 * ops.length) N
      Returned hi M r ∧ ∃ es, r.calls = N.calls ++ es ∧
        List.Forall₂ (fun (e : Entry) o =>
          e.target = o.1 ∧ e.reg .di = o.2 ∧ (e.reg .sp + 8) % 16 = 0) es ops := by
  have hs := run_fiberSwitchImpl callee hM.pc (by have := hM.descriptor; omega)
  generalize (machine callee).run 12 M = s at hs ⊢
  refine ⟨⟨hs.top, hs.sp, hs.pc⟩, fun N top ops hh hops hN htop hdi hstack => ?_⟩
  have hMdi := hM.descriptor
  have hresume := run_resume (by omega) (by omega) hh hops hN htop hdi hstack
  obtain ⟨rsp, rpc, hrs, es, hes, hall⟩ := hresume
  rw [show 20 + 6 * ops.length = 12 + 6 * ops.length + 8 by omega, run_add]
  generalize (machine callee).run (12 + 6 * ops.length) N = r at rsp rpc hrs hes
  obtain ⟨hret, hsaved⟩ : r.pc = switchReturn ∧
      Words 8 r.mem (r.reg .sp) (savedRegs.map M.reg) := by
    have hw : Words 8 r.mem (M.reg .sp - 64) (switchReturn :: savedRegs.map M.reg) :=
      hs.frame.keep (by decide) fun b h1 h2 => hrs b h1 (by simp [savedRegs] at h2; omega)
    exact ⟨rpc.trans hs.frame.1, by rw [rsp]; exact hw.2⟩
  -- and the first call returns
  obtain ⟨eregs, esp, epc, emem, ecalls⟩ := run_switchReturn callee rfl hret hsaved
  refine ⟨.of_map ?_ ?_ eregs fun a h1 h2 h3 => ?_, es, by rw [ecalls, hes], hall⟩
  · rw [epc, rsp, show M.reg .sp - 64 + 8 + 56 = M.reg .sp by omega, hrs _ (by omega) (by omega),
      hs.mem _ (by omega) (by omega)]
  · rw [esp, rsp]
    omega
  · rw [emem, hrs a (by omega) h2, hs.mem a h3 (by omega)]

/-- A function that stores through its argument, and returns. -/
def storing (t : State) : State :=
  { t with
    pc := t.mem (t.reg .sp), reg := Function.update t.reg .sp (t.reg .sp + 8)
    mem := Function.update t.mem (t.reg .di) 9 }

/-- It keeps the convention when its argument points below the stack of its caller. -/
theorem storing_returns {t : State} (h : t.reg .di < t.reg .sp + 8) :
    sysv.Returns hi t (storing t) where
  pc := rfl
  sp := by simp [storing, sysv]
  reg q hq := by
    have hne : q ≠ .sp := by
      intro he
      rw [he] at hq
      exact absurd hq (by decide)
    exact Function.update_of_ne hne _ _
  mem a ha _ := by
    simp only [sysv] at ha
    exact Function.update_of_ne (by omega) _ _

/-- Two operations are deferred on a context that is then switched back to; they store through their
arguments. -/
theorem fiberSwitchImpl_transparent_run : ∃ M N : State,
    Calling M ∧ Returned 1008 M ((machine storing).run 32 N) ∧
      ((machine storing).run 32 N).calls.map (fun e => (e.target, e.reg .di)) =
        [(51, 61), (50, 60)] := by
  let M : State :=
    { reg := fun q => if q = .sp then 1000 else if q = .di then 2000 else 1,
      mem := fun a => if a = 1000 then 77 else 5000, pc := fiberSwitchImpl, calls := [] }
  have hM : Calling M := ⟨rfl, by decide⟩
  obtain ⟨-, h⟩ := @fiberSwitchImpl_transparent storing 1008 M hM (by decide) (by decide)
  generalize (machine storing).run 12 M = s at h
  -- the saved `stack_top` is copied into a descriptor at 3000, and two operations are deferred
  let m₁ := Function.update s.mem 3000 936
  let m₂ := fiberAddDeferred 3000 50 60 m₁
  let N : State :=
    { reg := fun q => if q = .sp then 8000 else if q = .di then 3000 else 0,
      mem := fiberAddDeferred 3000 51 61 m₂, pc := fiberSwitchImpl, calls := [] }
  have h1 : m₁ 3000 = 936 := by simp [m₁]
  have h2 : m₂ 3000 = 904 := by simp [m₂, fiberAddDeferred, Asm.fiberAddDeferred, h1]
  have h3 : N.mem (N.reg .di) = 872 := by simp [N, fiberAddDeferred, Asm.fiberAddDeferred, h2]
  have hist : History 1008 s.mem 936 N.mem 872 [(51, 61), (50, 60)] := by
    refine History.deferred (History.deferred (History.saved.elsewhere fun a _ ha => ?_) h1
      (.inr (by decide))) h2 (.inr (by decide))
    exact Function.update_of_ne (by omega) _ _
  have hN : Calling N := ⟨rfl, by simp [N]⟩
  have hdi : 1008 ≤ N.reg .di := by simp [N]
  have hsp : 1008 ≤ N.reg .sp - 64 := by simp [N]
  obtain ⟨hf, qsp, qpc, -, -⟩ :=
    run_switchTo storing (by decide) hist hN h3 (.inr hdi) (.inr hsp)
  have hops : Conforms storing 1008 ((machine storing).run 12 N) [(51, 61), (50, 60)] := by
    refine conforms_of 872 (fun o ho => ?_) (by decide) (by decide) hf qsp qpc
    rcases List.mem_pair.1 ho with rfl | rfl
    · exact ⟨by decide, fun t _ hdi hlo => storing_returns (by omega)⟩
    · exact ⟨by decide, fun t _ hdi hlo => storing_returns (by omega)⟩
  obtain ⟨hret, es, hes, hall⟩ := h N 872 _ hist hops hN h3 (.inr hdi) (.inr hsp)
  refine ⟨M, N, hM, hret, ?_⟩
  rw [show 32 = 20 + 6 * [((51 : Int), (61 : Int)), (50, 60)].length from rfl, hes]
  rcases hall with _ | ⟨⟨e1, d1, -⟩, _ | ⟨⟨e2, d2, -⟩, _ | _⟩⟩
  simp [N, e1, e2, d1, d2]

end Asm.Amd64
