import FjxFiber.Asm.Deferred

/-!
# The i386 context switch (`src/gas-i386-sysv.s`)

`fiber_switch_impl` saves `eax`, `esi`, `edi`, `ebp` and the flags, and not `ebx`, which belongs to
the caller as well. `fiberSwitchImpl_returns` says what a switch back to a saved context does, and
when the call that saved it returns as the convention asks.
-/

set_option autoImplicit false

namespace Asm.I386

open X86 X86.Machine

/-! ## The text -/

def fiberSwitchImpl : Int := 4096
def switchReturn : Int := 4104
def switchResume : Int := 4110
def fiberLoadUnaryop : Int := 4114

/-- The label of the last routine. The file exports it under another name, `fiber_load_entrace`, so
that the reference in `fiber.c` does not link with the file as it stands; what is said about a new
fiber is about the file with that `.globl` line repaired. -/
def fiberLoadEntrance : Int := 4120

/-- `src/gas-i386-sysv.s`. -/
def text : List Instr :=
  [ -- fiber_switch_impl
    .push .bp, .mov .bp .sp, .push .ax, .push .si, .push .di, .push .flags, .load .cx .bp 8,
    .call switchResume,
    .pop .flags, .pop .di, .pop .si, .pop .ax, .pop .bp, .ret,
    -- .L_switch_resume
    .load .ax .cx 0, .store .sp .cx 0, .mov .sp .ax, .ret,
    -- fiber_load_unaryop
    .load .ax .sp 0, .load .cx .sp 4, .store .cx .sp 0, .callReg .ax, .addi .sp 12, .ret,
    -- fiber_load_entrance
    .load .ax .sp 0, .load .cx .sp 4, .store .cx .sp 0, .callReg .ax,
    .load .ax .sp 8, .load .cx .sp 12, .store .cx .sp 0, .callReg .ax, .addi .sp 16, .ret ]

def code (a : Int) : Option Instr :=
  if a < fiberSwitchImpl then none else text[(a - fiberSwitchImpl).toNat]?

/-- The System V convention for i386: the callee-saved registers; the word of the argument belongs
to the callee. -/
def sysv : Abi := { word := 4, saved := [.bx, .si, .di, .bp], home := 4 }

/-- The file, in a process whose other functions are `callee`. -/
def machine (callee : State → State) : Machine := { word := 4, code, callee }

def fiberAddDeferred : (f cleanup data : Int) → (Int → Int) → Int → Int :=
  Asm.fiberAddDeferred 4 fiberLoadUnaryop

abbrev Frames : (Int → Int) → Int → Int → List (Int × Int) → Prop :=
  Asm.Frames 4 fiberLoadUnaryop

abbrev History : Int → (Int → Int) → Int → (Int → Int) → Int → List (Int × Int) → Prop :=
  Asm.History 4 fiberLoadUnaryop

/-- The operations keep the convention in the calls that `fiber_load_unaryop` makes of them. -/
abbrev Conforms (callee : State → State) (hi : Int) : State → List (Int × Int) → Prop :=
  Asm.Conforms (machine callee) sysv hi 4 7

/-! ## The switch -/

variable {callee : State → State} {s : State} {hi : Int}

/-- What `fiber_switch_impl` pops, from the top of a saved frame upwards. -/
def savedRegs : List Reg := [.flags, .di, .si, .ax, .bp]

/-- The argument of a call of `fiber_switch_impl`: where the `stack_top` lies. -/
def descriptor (M : State) : Int := M.mem (M.reg .sp + 4)

/-- A call of `fiber_switch_impl(&f->stack_top)`: `f` is neither in the words that the call pushes
nor its return address. -/
structure Calling (M : State) : Prop where
  pc : M.pc = fiberSwitchImpl
  descriptor : descriptor M < M.reg .sp - 24 ∨ M.reg .sp + 4 ≤ descriptor M

/-- What a call of `fiber_switch_impl` in `M` leaves: its frame lies under `f->stack_top`, and
control is where the `stack_top` that was there says. -/
structure Switched (M s : State) : Prop where
  top : s.mem (descriptor M) = M.reg .sp - 24
  frame : Words 4 s.mem (M.reg .sp - 24) (switchReturn :: savedRegs.map M.reg)
  pc : s.pc = s.mem (M.mem (descriptor M))
  sp : s.reg .sp = M.mem (descriptor M) + 4
  bx : s.reg .bx = M.reg .bx
  mem : ∀ a, a ≠ descriptor M → a < M.reg .sp - 24 ∨ M.reg .sp ≤ a → s.mem a = M.mem a
  calls : s.calls = M.calls

/-- `fiber_switch_impl` up to the call of `.L_switch_resume`. -/
theorem run_switchSave (callee : State → State) {M : State} (hpc : M.pc = fiberSwitchImpl) :
    let p := (machine callee).run 7 M
    p.pc = fiberSwitchImpl + 7 ∧ p.reg .sp = M.reg .sp - 20 ∧ p.reg .cx = descriptor M ∧
      p.reg .bx = M.reg .bx ∧ Words 4 p.mem (M.reg .sp - 20) (savedRegs.map M.reg) ∧
      (∀ a, a < M.reg .sp - 20 ∨ M.reg .sp ≤ a → p.mem a = M.mem a) ∧ p.calls = M.calls := by
  rw [run_instr (i := .push .bp) 6 (by rw [hpc]; rfl),
    run_instr (i := .mov .bp .sp) 5 (by simp [exec, push, hpc]; rfl)]
  have hmov : ∃ t, (machine callee).exec ((machine callee).exec M (.push .bp)) (.mov .bp .sp) = t ∧
      t.pc = fiberSwitchImpl + 2 ∧ t.reg .sp = M.reg .sp - 4 ∧ t.reg .bp = M.reg .sp - 4 ∧
      (∀ q, q ≠ .sp → q ≠ .bp → t.reg q = M.reg q) ∧
      t.mem = Function.update M.mem (M.reg .sp - 4) (M.reg .bp) ∧ t.calls = M.calls := by
    refine ⟨_, rfl, ?_, ?_, ?_, fun q h1 h2 => ?_, ?_, ?_⟩ <;>
      simp [exec, push, machine, *]
    rfl
  obtain ⟨t, ht, tpc, tsp, tbp, treg, tmem, tcalls⟩ := hmov
  rw [ht, show 5 = [Reg.ax, .si, .di, .flags].length + 1 from rfl, run_add]
  have h := run_pushAll (m := machine callee) (by simp [machine]) [.ax, .si, .di, .flags]
    (by decide) (s := t) (by rw [tpc]; exact ⟨rfl, rfl, rfl, rfl, trivial⟩)
  generalize (machine callee).run [Reg.ax, .si, .di, .flags].length t = u at h ⊢
  have usp : u.reg .sp = M.reg .sp - 20 := by
    rw [h.sp, tsp]
    simp [machine]
    omega
  have umem := h.mem
  have uwords := h.words
  rw [usp, tsp] at umem
  rw [usp] at uwords
  have hrest : ∀ a, a < M.reg .sp - 20 ∨ M.reg .sp ≤ a → u.mem a = M.mem a := by
    intro a ha
    rw [umem a (by omega), tmem, Function.update_of_ne (by omega)]
  rw [run_instr (i := .load .cx .bp 8) 0 (by rw [h.pc, tpc]; rfl), run]
  refine ⟨?_, ?_, ?_, ?_, ?_, ?_, ?_⟩
  · simp [exec, h.pc, tpc, fiberSwitchImpl]
  · simp [exec, usp]
  · have hbp : u.reg .bp + 8 = M.reg .sp + 4 := by
      rw [h.reg .bp (by decide), tbp]
      omega
    simp only [exec, State.next_reg, State.set_reg, Function.update_self, hbp]
    exact hrest _ (by omega)
  · simp [exec, h.reg .bx (by decide), treg .bx (by decide) (by decide)]
  · -- the four registers, and `ebp` above them
    obtain ⟨w0, w1, w2, w3, -⟩ := uwords
    refine ⟨w0.trans ?_, w1.trans ?_, w2.trans ?_, w3.trans ?_, ?_, trivial⟩
    · exact treg .flags (by decide) (by decide)
    · exact treg .di (by decide) (by decide)
    · exact treg .si (by decide) (by decide)
    · exact treg .ax (by decide) (by decide)
    · show u.mem (M.reg .sp - 20 + 4 + 4 + 4 + 4) = M.reg .bp
      rw [show M.reg .sp - 20 + 4 + 4 + 4 + 4 = M.reg .sp - 4 by omega, umem _ (by omega), tmem,
        Function.update_self]
  · exact hrest
  · exact h.calls.trans tcalls

theorem run_fiberSwitchImpl (callee : State → State) {M : State} (hM : Calling M) :
    Switched M ((machine callee).run 12 M) := by
  have hf := hM.descriptor
  obtain ⟨ppc, psp, pcx, pbx, pwords, pmem, pcalls⟩ := run_switchSave callee hM.pc
  rw [show 12 = 7 + (1 + 4) from rfl, run_add]
  generalize (machine callee).run 7 M = p at *
  rw [run_add, run_instr (i := .call switchResume) 0 (by rw [ppc]; rfl), run]
  obtain ⟨emem, esp, epc, erest, ecalls⟩ := run_swapStack (m := machine callee) (r := .cx)
    (by decide) (s := (machine callee).exec p (.call switchResume))
    ⟨rfl, rfl, rfl, rfl, trivial⟩
  have ebx := erest .bx (by decide) (by decide)
  generalize (machine callee).run 4 ((machine callee).exec p (.call switchResume)) = q at *
  have htop : p.reg .sp - 4 = M.reg .sp - 24 := by omega
  have hret : p.pc + 1 = switchReturn := by rw [ppc]; rfl
  have hne : descriptor M ≠ M.reg .sp - 24 := by omega
  have hmf : p.mem (descriptor M) = M.mem (descriptor M) := pmem _ (by omega)
  simp [exec, push, machine, pcx, pbx, htop, hret, hne, hmf] at emem esp epc ebx ecalls
  have hq : ∀ a, a ≠ descriptor M → a ≠ M.reg .sp - 24 → q.mem a = p.mem a := by
    intro a h1 h2
    simp [emem, h1, h2]
  refine ⟨by simp [emem], ⟨by simp [emem, hne.symm], ?_⟩, epc, esp, ebx, fun a ha hr => ?_,
    ecalls.trans pcalls⟩
  · rw [show M.reg .sp - 24 + 4 = M.reg .sp - 20 by omega]
    refine pwords.keep (by decide) fun b hb hb' => ?_
    simp [savedRegs] at hb'
    exact hq b (by omega) (by omega)
  · rw [hq a ha (by omega), pmem a (by omega)]

/-- The return path of `fiber_switch_impl`, on a frame that holds `ws` and a return address. -/
theorem run_switchReturn (callee : State → State) (ws : List Int) (hlen : ws.length = 5)
    (hpc : s.pc = switchReturn) (hws : Words 4 s.mem (s.reg .sp) ws) :
    let s' := (machine callee).run 6 s
    savedRegs.map s'.reg = ws ∧ s'.reg .bx = s.reg .bx ∧ s'.reg .sp = s.reg .sp + 24 ∧
      s'.pc = s.mem (s.reg .sp + 20) ∧ s'.mem = s.mem ∧ s'.calls = s.calls := by
  have h := run_popRet (m := machine callee) savedRegs (by decide) (by decide) hlen.symm (s := s)
    (by rw [hpc]; exact ⟨rfl, rfl, rfl, rfl, rfl, rfl, trivial⟩) hws
  refine ⟨h.reg, h.rest .bx (by decide) (by decide), ?_, h.pc, h.mem, h.calls⟩
  rw [show s.reg .sp + 24 = s.reg .sp + 20 + 4 by omega]
  exact h.sp

/-! ## Deferred operations -/

/-- The call `e` is of an operation, with its argument at the top of the stack. -/
structure Called (o : Int × Int) (e : Entry) : Prop where
  target : e.target = o.1
  arg : e.mem (e.reg .sp + 4) = o.2

/-- `fiber_load_unaryop` writes `arg` over the address of `op`, and calls `op`. -/
theorem run_enterUnaryop (callee : State → State) {s : State} (op arg : Int)
    (hpc : s.pc = fiberLoadUnaryop) (hop : s.mem (s.reg .sp) = op)
    (harg : s.mem (s.reg .sp + 4) = arg) :
    let t := (machine callee).run 4 s
    t.reg .sp = s.reg .sp - 4 ∧ t.reg .bx = s.reg .bx ∧
      t.mem = Function.update (Function.update s.mem (s.reg .sp) arg) (s.reg .sp - 4)
        (fiberLoadUnaryop + 4) ∧ Called (op, arg) t.entry ∧ t.calls = s.calls := by
  rw [run_instr (i := .load .ax .sp 0) 3 (by rw [hpc]; rfl),
    run_instr (i := .load .cx .sp 4) 2 (by simp [exec, hpc]; rfl),
    run_instr (i := .store .cx .sp 0) 1 (by simp [exec, hpc]; rfl),
    run_instr (i := .callReg .ax) 0 (by simp [exec, hpc]; rfl)]
  refine ⟨?_, ?_, ?_, ⟨?_, ?_⟩, ?_⟩
  · simp [run, exec, push, machine]
  · simp [run, exec, push, machine]
  · simp [run, exec, push, machine, hpc, harg]
    rfl
  · simp [run, exec, push, State.entry, hop]
  · have hne : s.reg .sp ≠ s.reg .sp - 4 := by omega
    simp [run, exec, push, machine, State.entry, harg, hne]
  · simp [run, exec, push]

/-- **A deferred operation runs**: `fiber_load_unaryop` calls `op` with `arg`, and returns to the
word above its frame. -/
theorem run_fiberLoadUnaryop (op arg : Int) (hpc : s.pc = fiberLoadUnaryop)
    (hop : s.mem (s.reg .sp) = op) (harg : s.mem (s.reg .sp + 4) = arg) (hext : code op = none)
    (habi : sysv.Returns hi ((machine callee).run 4 s) (callee ((machine callee).run 4 s))) :
    let s' := (machine callee).run 7 s
    ∃ e, s'.calls = s.calls ++ [e] ∧ Called (op, arg) e ∧ s'.reg .sp = s.reg .sp + 16 ∧
      s'.pc = s'.mem (s.reg .sp + 12) ∧ s'.reg .bx = s.reg .bx ∧
      ∀ a, s.reg .sp + 4 ≤ a → a < hi → s'.mem a = s.mem a := by
  rw [show 7 = 4 + (1 + 2) from rfl, run_add]
  obtain ⟨tsp, tbx, tmem, tcalled, tcalls⟩ := run_enterUnaryop callee op arg hpc hop harg
  generalize (machine callee).run 4 s = t at *
  have tpc : t.pc = op := tcalled.target
  -- it comes back to the instruction after the call
  obtain ⟨upc, usp, ureg, -, umem, ucalls⟩ := habi.back (m := machine callee) rfl
    (by simp [machine]) (by decide) (by rw [tpc]; exact hext) tsp tmem
  have ubx := (ureg .bx (by decide)).trans tbx
  rw [run_add]
  generalize (machine callee).run 1 t = u at *
  rw [run_instr (i := .addi .sp 12) 1 (by rw [upc]; rfl),
    run_instr (i := .ret) 0 (by simp [exec, upc]; rfl)]
  refine ⟨t.entry, ?_, tcalled, ?_, ?_, ?_, fun a ha hahi => ?_⟩
  · simp [run, exec, pop, ucalls, tcalls]
  · simp [run, exec, pop, machine, usp]
    omega
  · simp [run, exec, pop, usp]
  · simp [run, exec, pop, ubx]
  · exact (umem a ha hahi).trans (Function.update_of_ne (by omega) _ _)

/-- Returning to the top of the frames runs the operations, each of them once and the top one
first, and ends at the saved frame. -/
theorem run_frames {base : Int} {ops : List (Int × Int)} (hops : Conforms callee hi s ops)
    (hhi : base < hi) {top : Int} (hf : Frames s.mem base top ops) (hsp : s.reg .sp = top + 4)
    (hpc : s.pc = s.mem top) :
    let s' := (machine callee).run (7 * ops.length) s
    (∃ es, s'.calls = s.calls ++ es ∧ List.Forall₂ Called ops es) ∧ s'.reg .sp = base + 4 ∧
      s'.pc = s'.mem base ∧ s'.reg .bx = s.reg .bx ∧
      ∀ a, base ≤ a → a < hi → s'.mem a = s.mem a := by
  induction ops generalizing s top with
  | nil =>
    obtain rfl : top = base := hf
    exact ⟨⟨[], by simp [run], .nil⟩, hsp, hpc, rfl, fun _ _ _ => rfl⟩
  | cons o ops ih =>
    obtain ⟨⟨w0, w1, w2, w3, -⟩, hf⟩ := hf
    obtain ⟨⟨hext, habi⟩, hops⟩ := hops
    have hle := hf.le (by decide)
    obtain ⟨e, ecalls, ecalled, rsp, rpc, rbx, rmem⟩ := run_fiberLoadUnaryop o.1 o.2
      (hpc.trans w0) (by rw [hsp]; exact w1) (by rw [hsp]; exact w2) hext habi
    rw [List.length_cons, Nat.mul_succ, Nat.add_comm, run_add]
    generalize (machine callee).run 7 s = r at *
    obtain ⟨⟨es, hes, hall⟩, h2, h3, h4, h5⟩ := ih (s := r) hops
      (hf.keep (by decide) fun a h1 h2 => rmem a (by omega) (by omega)) (by omega)
      (by rw [rpc, hsp, Int.add_assoc]; rfl)
    refine ⟨⟨e :: es, by rw [hes, ecalls]; simp, .cons ecalled hall⟩, h2, h3, h4.trans rbx, ?_⟩
    exact fun a h6 h7 => (h5 a h6 h7).trans (rmem a (by omega) h7)

/-- Operations keep the convention in the calls that the run makes of them if they do whenever they
are called with their argument and with a stack above the frames. -/
theorem conforms_of (lo : Int) {base : Int} {ops : List (Int × Int)}
    (hops : ∀ o ∈ ops, code o.1 = none ∧ ∀ t : State, Called o t.entry → lo ≤ t.reg .sp →
      sysv.Returns hi t (callee t))
    (hhi : base < hi) {top : Int} (hlo : lo ≤ top) (hf : Frames s.mem base top ops)
    (hsp : s.reg .sp = top + 4) (hpc : s.pc = s.mem top) : Conforms callee hi s ops := by
  induction ops generalizing s top with
  | nil => trivial
  | cons o ops ih =>
    obtain ⟨⟨w0, w1, w2, w3, -⟩, hf⟩ := hf
    obtain ⟨hext, habi⟩ := hops o (by simp)
    have hle := hf.le (by decide)
    have hentry := hpc.trans w0
    have hop : s.mem (s.reg .sp) = o.1 := by rw [hsp]; exact w1
    have harg : s.mem (s.reg .sp + 4) = o.2 := by rw [hsp]; exact w2
    obtain ⟨tsp, -, -, tcalled, -⟩ := run_enterUnaryop callee o.1 o.2 hentry hop harg
    have hret := habi _ tcalled (by omega)
    refine ⟨⟨hext, hret⟩, ?_⟩
    obtain ⟨e, -, -, rsp, rpc, -, rmem⟩ :=
      run_fiberLoadUnaryop o.1 o.2 hentry hop harg hext hret
    generalize (machine callee).run 7 s = r at *
    have hlo' : lo ≤ top + 4 * 4 := by omega
    exact ih (s := r) (fun o ho => hops o (.tail _ ho)) hlo'
      (hf.keep (by decide) fun a h1 h2 => rmem a (by omega) (by omega)) (by omega)
      (by rw [rpc, hsp, Int.add_assoc]; rfl)

/-! ## The switch there and back -/

/-- After a switch to a context with `ops` deferred on it, their frames are at the top. -/
theorem run_switchTo {mem₀ : Int → Int} {base : Int} {N : State} {ops : List (Int × Int)}
    (callee : State → State) (hhi : base < hi)
    (hh : History hi mem₀ base N.mem (N.mem (descriptor N)) ops) (hN : Calling N)
    (haside : descriptor N < N.mem (descriptor N) ∨ hi ≤ descriptor N)
    (hstack : N.reg .sp ≤ N.mem (descriptor N) ∨ hi ≤ N.reg .sp - 24) :
    let q := (machine callee).run 12 N
    Frames q.mem base (N.mem (descriptor N)) ops ∧ q.reg .sp = N.mem (descriptor N) + 4 ∧
      q.pc = q.mem (N.mem (descriptor N)) ∧ q.reg .bx = N.reg .bx ∧ q.calls = N.calls ∧
      ∀ a, base ≤ a → a < hi → q.mem a = mem₀ a := by
  obtain ⟨hf, hkept⟩ := hh.frames (by decide) hhi
  have hle := hf.le (by decide)
  -- the switch leaves the saved stack alone
  have hq := run_fiberSwitchImpl callee hN
  generalize (machine callee).run 12 N = q at hq
  have hqm : ∀ a, N.mem (descriptor N) ≤ a → a < hi → q.mem a = N.mem a := by
    intro a h1 h2
    exact hq.mem a (by omega) (by omega)
  refine ⟨hf.keep (by decide) fun a h1 h2 => hqm a h1 (by omega), hq.sp, hq.pc, hq.bx, hq.calls,
    fun a h1 h2 => ?_⟩
  rw [hqm a (by omega) h2, hkept a h1 h2]

/-- The call that was entered in `M` has returned, with the stack up to `hi` as it was but for the
word that the call wrote. -/
structure Returned (hi : Int) (M r : State) : Prop where
  pc : r.pc = M.mem (M.reg .sp)
  sp : r.reg .sp = M.reg .sp + 4
  saved : ∀ q ∈ sysv.saved, r.reg q = M.reg q
  mem : ∀ a, M.reg .sp ≤ a → a < hi → a ≠ descriptor M → r.mem a = M.mem a

/-- A call in `N` switches back to the context that a call in `M` has saved, after a history that
keeps the saved stack up to `hi` and defers `ops` on it. -/
structure SwitchBack (callee : State → State) (hi : Int) (M N : State) (ops : List (Int × Int)) :
    Prop where
  history : History hi ((machine callee).run 12 M).mem (M.reg .sp - 24) N.mem
    (N.mem (descriptor N)) ops
  calling : Calling N
  -- `N` is on another stack, and so is its descriptor
  aside : descriptor N < N.mem (descriptor N) ∨ hi ≤ descriptor N
  stack : N.reg .sp ≤ N.mem (descriptor N) ∨ hi ≤ N.reg .sp - 24

/-- **A switch back to a saved context**: it calls the operations deferred on it, the last deferred
first, and returns from the call that saved it, with the registers of `savedRegs` as they were
there and `ebx` as it is at the switch back. -/
theorem run_switchBack {M N : State} {ops : List (Int × Int)} (hM : Calling M)
    (hhi : M.reg .sp + 4 ≤ hi) (hN : SwitchBack callee hi M N ops)
    (hops : Conforms callee hi ((machine callee).run 12 N) ops) :
    let r := (machine callee).run (18 + 7 * ops.length) N
    (∃ es, r.calls = N.calls ++ es ∧ List.Forall₂ Called ops es) ∧
      r.pc = M.mem (M.reg .sp) ∧ r.reg .sp = M.reg .sp + 4 ∧
      savedRegs.map r.reg = savedRegs.map M.reg ∧ r.reg .bx = N.reg .bx ∧
      ∀ a, M.reg .sp ≤ a → a < hi → a ≠ descriptor M → r.mem a = M.mem a := by
  have hs := run_fiberSwitchImpl callee hM
  have hf := hM.descriptor
  obtain ⟨hh, hcall, haside, hstack⟩ := hN
  generalize (machine callee).run 12 M = s at hs hh
  obtain ⟨hframes, qsp, qpc, qbx, qcalls, qmem⟩ :=
    run_switchTo callee (by omega) hh hcall haside hstack
  rw [show 18 + 7 * ops.length = 12 + (7 * ops.length + 6) by omega, run_add]
  generalize (machine callee).run 12 N = q at *
  -- the operations run
  obtain ⟨⟨es, hes, hall⟩, usp, upc, ubx, umem⟩ :=
    run_frames (s := q) hops (by omega) hframes qsp qpc
  rw [run_add]
  generalize (machine callee).run (7 * ops.length) q = u at *
  have hu : ∀ a, M.reg .sp - 24 ≤ a → a < hi → u.mem a = s.mem a := by
    intro a h1 h2
    rw [umem a h1 h2, qmem a h1 h2]
  -- and the first call returns
  have hw : Words 4 u.mem (M.reg .sp - 24) (switchReturn :: savedRegs.map M.reg) := by
    refine hs.frame.keep (by decide) fun b h1 h2 => hu b h1 ?_
    simp [savedRegs] at h2
    omega
  obtain ⟨rregs, rbx, rsp, rpc, rmem, rcalls⟩ := run_switchReturn callee (s := u)
    (savedRegs.map M.reg) rfl (upc.trans hw.1) (by rw [usp]; exact hw.2)
  refine ⟨⟨es, by rw [rcalls, hes, qcalls], hall⟩, ?_, by omega, rregs, ?_, fun a h1 h2 h3 => ?_⟩
  · rw [rpc, usp, show M.reg .sp - 24 + 4 + 20 = M.reg .sp by omega, hu _ (by omega) (by omega),
      hs.mem _ (by omega) (by omega)]
  · rw [rbx, ubx, qbx]
  · rw [rmem, hu a (by omega) h2, hs.mem a h3 (by omega)]

/-- **The i386 context switch preserves the callee-saved state exactly when `ebx` is as it was.**
A call of `fiber_switch_impl` leaves its own context at `f->stack_top`. After any history that
keeps the saved stack up to `hi` and defers `ops` on it, a call of `fiber_switch_impl` on another
stack whose descriptor holds the saved `stack_top` calls these operations, the last deferred first
and each with its argument at the top of the stack, and returns from the first call with its
callee-saved registers, if and only if the second call was entered with the first one's `ebx`. -/
theorem fiberSwitchImpl_returns {M : State} (hM : Calling M) (hhi : M.reg .sp + 4 ≤ hi) :
    ((machine callee).run 12 M).mem (descriptor M) = M.reg .sp - 24 ∧
    ∀ (N : State) (ops : List (Int × Int)), SwitchBack callee hi M N ops →
      Conforms callee hi ((machine callee).run 12 N) ops →
      let r := (machine callee).run (18 + 7 * ops.length) N
      (((∃ es, r.calls = N.calls ++ es ∧ List.Forall₂ Called ops es) ∧ Returned hi M r) ↔
        N.reg .bx = M.reg .bx) := by
  refine ⟨(run_fiberSwitchImpl callee hM).top, fun N ops hN hops => ?_⟩
  obtain ⟨hcalls, rpc, rsp, rregs, rbx, rmem⟩ := run_switchBack hM hhi hN hops
  intro r
  constructor
  · intro h
    exact rbx.symm.trans (h.2.saved .bx (by decide))
  · intro hbx
    refine ⟨hcalls, rpc, rsp, fun q hq => ?_, rmem⟩
    by_cases hqb : q = .bx
    · rw [hqb]
      exact rbx.trans hbx
    · have hsub : ∀ q ∈ sysv.saved, q ≠ .bx → q ∈ savedRegs := by decide
      exact List.map_inj_left.1 rregs q (hsub q hq hqb)

/-- A function that stores through its argument, and returns. -/
def storing (t : State) : State :=
  { t with
    pc := t.mem (t.reg .sp), reg := Function.update t.reg .sp (t.reg .sp + 4)
    mem := Function.update t.mem (t.mem (t.reg .sp + 4)) 9 }

/-- It keeps the convention when its argument points below the stack of its caller. -/
theorem storing_returns {t : State} (h : t.mem (t.reg .sp + 4) < t.reg .sp + 8) :
    sysv.Returns hi t (storing t) where
  pc := rfl
  sp := by simp [storing, sysv]
  reg q hq := by
    have hne : q ≠ .sp := by
      intro he
      rw [he] at hq
      exact absurd hq (by decide)
    exact Function.update_of_ne hne _ _
  mem a ha _ := by
    simp only [sysv] at ha
    exact Function.update_of_ne (by omega) _ _

theorem storing_conforms {op arg lo : Int} (hop : code op = none) (hlo : arg < lo) :
    ∀ o ∈ [(op, arg)], code o.1 = none ∧ ∀ t : State, Called o t.entry → lo ≤ t.reg .sp →
      sysv.Returns hi t (storing t) := by
  intro o ho
  obtain rfl := List.mem_singleton.1 ho
  refine ⟨hop, fun t hcalled hsp => storing_returns ?_⟩
  have harg : t.mem (t.reg .sp + 4) = arg := hcalled.arg
  omega

/-- An operation that stores through its argument is deferred on a context, and it is switched back
to with the `ebx` it had. -/
theorem fiberSwitchImpl_returns_run : ∃ M N : State, Calling M ∧ M.reg .bx = 7 ∧
    Returned 1004 M ((machine storing).run 25 N) ∧
      ((machine storing).run 25 N).calls.map (fun e => (e.target, e.mem (e.reg .sp + 4))) =
        [(50, 60)] := by
  let M : State :=
    { reg := fun q => if q = .sp then 1000 else 7,
      mem := fun a => if a = 1000 then 77 else if a = 1004 then 2000 else 5000,
      pc := fiberSwitchImpl, calls := [] }
  have hM : Calling M := ⟨rfl, by decide⟩
  obtain ⟨-, h⟩ := @fiberSwitchImpl_returns storing 1004 M hM (by decide)
  -- the saved `stack_top` is copied into a descriptor at 3000, and an operation is deferred
  let m₁ := Function.update ((machine storing).run 12 M).mem 3000 976
  let m₂ := fiberAddDeferred 3000 50 60 m₁
  let N : State :=
    { reg := fun q => if q = .sp then 8000 else if q = .bx then 7 else 0,
      mem := Function.update m₂ 8004 3000, pc := fiberSwitchImpl, calls := [] }
  have h1 : m₁ 3000 = 976 := by simp [m₁]
  have h2 : descriptor N = 3000 := by simp [descriptor, N]
  have h3 : N.mem (descriptor N) = 960 := by
    rw [h2]
    simp [N, m₂, fiberAddDeferred, Asm.fiberAddDeferred, h1]
  have hist : History 1004 ((machine storing).run 12 M).mem 976 N.mem (N.mem (descriptor N))
      [(50, 60)] := by
    rw [h3]
    refine History.elsewhere (History.deferred (History.saved.elsewhere fun a _ ha => ?_) h1
      (.inr (by decide))) fun a _ ha => ?_
    · exact Function.update_of_ne (by omega) _ _
    · exact Function.update_of_ne (by omega) _ _
  have hN : SwitchBack storing 1004 M N [(50, 60)] :=
    ⟨hist, ⟨rfl, .inl (by rw [h2]; decide)⟩, .inr (by rw [h2]; decide), .inr (by decide)⟩
  obtain ⟨hf, qsp, qpc, -⟩ :=
    run_switchTo storing (by decide) hN.history hN.calling hN.aside hN.stack
  have hops : Conforms storing 1004 ((machine storing).run 12 N) [(50, 60)] :=
    conforms_of 960 (storing_conforms (by decide) (by decide)) (by decide)
      (Int.le_of_eq h3.symm) hf qsp qpc
  obtain ⟨⟨es, hes, hall⟩, hret⟩ := (h N [(50, 60)] hN hops).2 rfl
  refine ⟨M, N, hM, rfl, hret, ?_⟩
  rw [show 25 = 18 + 7 * [((50 : Int), (60 : Int))].length from rfl, hes]
  rcases hall with _ | ⟨⟨e1, d1⟩, _ | _⟩
  simp [N, e1, d1]

/-- Whoever switches back has another `ebx`, and the first caller loses its own. -/
theorem fiberSwitchImpl_loses_bx : ∃ (callee : State → State) (M N : State), Calling M ∧
    SwitchBack callee 1004 M N [] ∧ M.reg .bx = 7 ∧
      let r := (machine callee).run 18 N
      r.pc = M.mem (M.reg .sp) ∧ r.reg .sp = M.reg .sp + 4 ∧ r.reg .bx = 0 ∧
        ¬ Returned 1004 M r := by
  let M : State :=
    { reg := fun q => if q = .sp then 1000 else 7,
      mem := fun a => if a = 1000 then 77 else if a = 1004 then 2000 else 5000,
      pc := fiberSwitchImpl, calls := [] }
  let N : State :=
    { reg := fun q => if q = .sp then 8000 else 0,
      mem := Function.update (Function.update ((machine id).run 12 M).mem 3000 976) 8004 3000,
      pc := fiberSwitchImpl, calls := [] }
  have hM : Calling M := ⟨rfl, by decide⟩
  have h1 : descriptor N = 3000 := by simp [descriptor, N]
  have h2 : N.mem (descriptor N) = 976 := by
    rw [h1]
    simp [N]
  have hN : SwitchBack id 1004 M N [] := by
    refine ⟨?_, ⟨rfl, .inl (by rw [h1]; decide)⟩, .inr (by rw [h1]; decide), .inr (by decide)⟩
    rw [h2]
    refine History.saved.elsewhere fun a _ ha => ?_
    simp only [N]
    rw [Function.update_of_ne (by omega), Function.update_of_ne (by omega)]
  obtain ⟨-, rpc, rsp, -, rbx, -⟩ :=
    run_switchBack hM (by decide) hN trivial
  simp only [List.length_nil, Nat.mul_zero, Nat.add_zero] at rpc rsp rbx
  refine ⟨id, M, N, hM, hN, rfl, rpc, rsp, rbx, fun hr => ?_⟩
  have hbx : (0 : Int) = 7 := rbx.symm.trans (hr.saved .bx (by decide))
  exact absurd hbx (by decide)

end Asm.I386
