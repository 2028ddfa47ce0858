import Mathlib.Data.List.Forall2
import Mathlib.Data.List.Nodup
import Mathlib.Logic.Function.Basic

/-!
# An x86 machine with external calls

The instructions that a context switch is written in, over registers and a memory of words. The
width of a word is a parameter, so the same machine runs 32- and 64-bit code; addresses and words
are integers, since no stack wraps around the address space. Instructions are numbered: the one
after address `a` is at `a + 1`.

Control that leaves the text enters a function of some other object file. Such a call is logged
with the state at its entry, and `Machine.callee` says in which state it comes back. What a calling
convention asks of it is `Abi.Returns`, and `Abi.Returns.back` what the caller finds.

Routines are put together from register saves and restores, so that no proof steps through single
pushes: `run_pushAll` and `run_popAll` say what they do to the words of a stack, `run_popRet` how a
routine ends, and `run_saveSwap` what a switch to another stack leaves on this one.
-/

set_option autoImplicit false

namespace X86

/-! ## States -/

inductive Reg
  | ax | bx | cx | dx | si | di | bp | sp
  | r8 | r9 | r10 | r11 | r12 | r13 | r14 | r15 | flags
  deriving DecidableEq, Repr

/-- A call that left the text, as it was entered. -/
structure Entry where
  target : Int
  reg : Reg → Int
  mem : Int → Int

structure State where
  reg : Reg → Int
  mem : Int → Int
  pc : Int
  /-- The calls out of the text so far. -/
  calls : List Entry

namespace State

def set (s : State) (r : Reg) (v : Int) : State := { s with reg := Function.update s.reg r v }

def store (s : State) (a v : Int) : State := { s with mem := Function.update s.mem a v }

def goto (s : State) (a : Int) : State := { s with pc := a }

def next (s : State) : State := s.goto (s.pc + 1)

def entry (s : State) : Entry := { target := s.pc, reg := s.reg, mem := s.mem }

variable (s : State) (r : Reg) (a v : Int)

@[simp] theorem set_reg : (s.set r v).reg = Function.update s.reg r v := rfl
@[simp] theorem set_mem : (s.set r v).mem = s.mem := rfl
@[simp] theorem set_pc : (s.set r v).pc = s.pc := rfl
@[simp] theorem set_calls : (s.set r v).calls = s.calls := rfl
@[simp] theorem store_mem : (s.store a v).mem = Function.update s.mem a v := rfl
@[simp] theorem store_reg : (s.store a v).reg = s.reg := rfl
@[simp] theorem store_pc : (s.store a v).pc = s.pc := rfl
@[simp] theorem store_calls : (s.store a v).calls = s.calls := rfl
@[simp] theorem goto_reg : (s.goto a).reg = s.reg := rfl
@[simp] theorem goto_mem : (s.goto a).mem = s.mem := rfl
@[simp] theorem goto_pc : (s.goto a).pc = a := rfl
@[simp] theorem goto_calls : (s.goto a).calls = s.calls := rfl
@[simp] theorem next_reg : s.next.reg = s.reg := rfl
@[simp] theorem next_mem : s.next.mem = s.mem := rfl
@[simp] theorem next_pc : s.next.pc = s.pc + 1 := rfl
@[simp] theorem next_calls : s.next.calls = s.calls := rfl

end State

/-! ## Instructions -/

inductive Instr
  | push (r : Reg)
  | pop (r : Reg)
  /-- `mov off(base), dst` -/
  | load (dst base : Reg) (off : Int)
  /-- `mov src, off(base)` -/
  | store (src base : Reg) (off : Int)
  | mov (dst src : Reg)
  | addi (dst : Reg) (v : Int)
  | call (target : Int)
  | callReg (r : Reg)
  | ret
  deriving DecidableEq, Repr

/-- A text, the width of a word, and what the functions outside the text do. -/
structure Machine where
  word : Int
  code : Int → Option Instr
  callee : State → State

namespace Machine

variable (m : Machine)

def push (s : State) (v : Int) : State :=
  (s.set .sp (s.reg .sp - m.word)).store (s.reg .sp - m.word) v

def pop (s : State) : State := s.set .sp (s.reg .sp + m.word)

def exec (s : State) : Instr → State
  | .push r => (m.push s (s.reg r)).next
  | .pop r => ((m.pop s).set r (s.mem (s.reg .sp))).next
  | .load dst base off => (s.set dst (s.mem (s.reg base + off))).next
  | .store src base off => (s.store (s.reg base + off) (s.reg src)).next
  | .mov dst src => (s.set dst (s.reg src)).next
  | .addi dst v => (s.set dst (s.reg dst + v)).next
  | .call target => (m.push s (s.pc + 1)).goto target
  | .callReg r => (m.push s (s.pc + 1)).goto (s.reg r)
  | .ret => (m.pop s).goto (s.mem (s.reg .sp))

/-- A call that leaves the text, from its entry to its return. -/
def callOut (s : State) : State := { m.callee s with calls := s.calls ++ [s.entry] }

@[simp] theorem callOut_reg (s : State) : (m.callOut s).reg = (m.callee s).reg := rfl
@[simp] theorem callOut_mem (s : State) : (m.callOut s).mem = (m.callee s).mem := rfl
@[simp] theorem callOut_pc (s : State) : (m.callOut s).pc = (m.callee s).pc := rfl
@[simp] theorem callOut_calls (s : State) : (m.callOut s).calls = s.calls ++ [s.entry] := rfl

/-- One instruction, or one call out of the text. -/
def step (s : State) : State :=
  match m.code s.pc with
  | some i => m.exec s i
  | none => m.callOut s

def run : Nat → State → State
  | 0, s => s
  | n + 1, s => run n (m.step s)

theorem run_add (i j : Nat) (s : State) : m.run (i + j) s = m.run j (m.run i s) := by
  induction i generalizing s with
  | zero => simp [run]
  | succ i ih => rw [Nat.succ_add, run, ih, run]

variable {m}

/-- A run that starts with an instruction of the text. -/
theorem run_instr {s : State} {i : Instr} (n : Nat) (h : m.code s.pc = some i) :
    m.run (n + 1) s = m.run n (m.exec s i) := by
  rw [run, step, h]

/-- A run that starts with a call out of the text. -/
theorem run_callOut {s : State} (n : Nat) (h : m.code s.pc = none) :
    m.run (n + 1) s = m.run n (m.callOut s) := by
  rw [run, step, h]

end Machine

/-! ## Words on a stack -/

/-- The words `ws` lie at `a`, upwards. -/
def Words (word : Int) (mem : Int → Int) (a : Int) : List Int → Prop
  | [] => True
  | v :: vs => mem a = v ∧ Words word mem (a + word) vs

namespace Words

variable {word : Int} {mem mem' : Int → Int} {a : Int} {vs ws : List Int}

/-- Words are kept by everything that keeps the memory they lie in. -/
theorem keep (hw : 0 < word) (h : Words word mem a ws)
    (hm : ∀ b, a ≤ b → b < a + word * ws.length → mem' b = mem b) : Words word mem' a ws := by
  induction ws generalizing a with
  | nil => trivial
  | cons v vs ih =>
    have hlen : word * ((v :: vs).length : Int) = word + word * (vs.length : Int) := by
      rw [List.length_cons, Int.natCast_add, Int.mul_add]
      omega
    have hpos : 0 ≤ word * (vs.length : Int) := Int.mul_nonneg (by omega) (by omega)
    refine ⟨(hm a (by omega) (by omega)).trans h.1, ih h.2 fun b hb hb' => hm b ?_ ?_⟩ <;> omega

theorem append (h : Words word mem a vs) (h' : Words word mem (a + word * vs.length) ws) :
    Words word mem a (vs ++ ws) := by
  induction vs generalizing a with
  | nil => simpa using h'
  | cons v vs ih =>
    refine ⟨h.1, ih h.2 ?_⟩
    rw [List.length_cons, Int.natCast_add, Int.mul_add] at h'
    have : a + word + word * (vs.length : Int) = a + (word * vs.length + word * (1 : Nat)) := by
      simp only [Int.natCast_one, Int.mul_one]
      omega
    rwa [this]

end Words

namespace Machine

variable {m : Machine}

/-- The code at `a` is the instructions `is`. -/
def CodeAt (m : Machine) (a : Int) : List Instr → Prop
  | [] => True
  | i :: is => m.code a = some i ∧ CodeAt m (a + 1) is

/-- What a run of pushes leaves: the values on the stack, the last one at its top. -/
structure Pushed (m : Machine) (rs : List Reg) (s s' : State) : Prop where
  pc : s'.pc = s.pc + rs.length
  sp : s'.reg .sp = s.reg .sp - m.word * rs.length
  reg : ∀ r, r ≠ .sp → s'.reg r = s.reg r
  words : Words m.word s'.mem (s'.reg .sp) (rs.reverse.map s.reg)
  mem : ∀ a, a < s'.reg .sp ∨ s.reg .sp ≤ a → s'.mem a = s.mem a
  calls : s'.calls = s.calls

/-- **A register save**: pushes of registers other than the stack pointer. -/
theorem run_pushAll (hw : 0 < m.word) (rs : List Reg) (hsp : .sp ∉ rs) {s : State}
    (hc : m.CodeAt s.pc (rs.map .push)) : Pushed m rs s (m.run rs.length s) := by
  induction rs generalizing s with
  | nil => exact ⟨by simp [run], by simp [run], fun _ _ => rfl, trivial, fun _ _ => rfl, rfl⟩
  | cons r rs ih =>
    obtain ⟨hr, hrs⟩ : .sp ≠ r ∧ .sp ∉ rs := by simpa using hsp
    rw [List.length_cons, run_instr _ hc.1]
    have h := ih (s := m.exec s (.push r)) hrs hc.2
    have e1 : (m.exec s (.push r)).reg .sp = s.reg .sp - m.word := by simp [exec, push]
    have e2 : ∀ q, q ≠ .sp → (m.exec s (.push r)).reg q = s.reg q := fun q hq => by
      simp [exec, push, hq]
    have e3 : (m.exec s (.push r)).pc = s.pc + 1 := by simp [exec, push]
    have hlen : m.word * ((rs.length + 1 : Nat) : Int) = m.word * (rs.length : Int) + m.word := by
      rw [Int.natCast_add, Int.mul_add, Int.natCast_one, Int.mul_one]
    have hpos : 0 ≤ m.word * (rs.length : Int) := Int.mul_nonneg (by omega) (by omega)
    have hsp' := h.sp
    rw [e1] at hsp'
    refine ⟨?_, ?_, fun q hq => (h.reg q hq).trans (e2 q hq), ?_, fun a ha => ?_, ?_⟩
    · rw [h.pc, e3]
      simp only [List.length_cons]
      omega
    · rw [hsp', List.length_cons, hlen]
      omega
    · -- the first push lies above the later ones
      rw [List.reverse_cons, List.map_append]
      refine Words.append ?_ ⟨?_, trivial⟩
      · have hmap : rs.reverse.map s.reg = rs.reverse.map (m.exec s (.push r)).reg :=
          List.map_congr_left fun q hq =>
            (e2 q fun he => hrs (he ▸ List.mem_reverse.1 hq)).symm
        rw [hmap]
        exact h.words
      · rw [List.length_map, List.length_reverse, hsp',
          show s.reg .sp - m.word - m.word * (rs.length : Int) + m.word * (rs.length : Int) =
            s.reg .sp - m.word by omega, h.mem _ (.inr (by omega))]
        simp [exec, push]
    · have hne : a ≠ s.reg .sp - m.word := by
        rw [hsp'] at ha
        omega
      rw [h.mem a (by omega)]
      simp [exec, push, hne]
    · rw [h.calls]
      simp [exec, push]

/-- What a run of pops leaves: the registers hold the words that lay on the stack. -/
structure Popped (m : Machine) (rs : List Reg) (ws : List Int) (s s' : State) : Prop where
  pc : s'.pc = s.pc + rs.length
  sp : s'.reg .sp = s.reg .sp + m.word * rs.length
  reg : rs.map s'.reg = ws
  rest : ∀ r, r ≠ .sp → r ∉ rs → s'.reg r = s.reg r
  mem : s'.mem = s.mem
  calls : s'.calls = s.calls

/-- **A register restore**: pops of distinct registers other than the stack pointer. -/
theorem run_popAll (rs : List Reg) (hsp : .sp ∉ rs) (hnd : rs.Nodup) {ws : List Int}
    (hlen : rs.length = ws.length) {s : State} (hc : m.CodeAt s.pc (rs.map .pop))
    (hws : Words m.word s.mem (s.reg .sp) ws) : Popped m rs ws s (m.run rs.length s) := by
  induction rs generalizing s ws with
  | nil =>
    obtain rfl : ws = [] := List.length_eq_zero_iff.1 hlen.symm
    exact ⟨by simp [run], by simp [run], rfl, fun _ _ _ => rfl, rfl, rfl⟩
  | cons r rs ih =>
    obtain ⟨hr, hrs⟩ : .sp ≠ r ∧ .sp ∉ rs := by simpa using hsp
    obtain ⟨hnr, hnd⟩ := List.nodup_cons.1 hnd
    cases ws with
    | nil => simp at hlen
    | cons v vs =>
      obtain ⟨hv, hvs⟩ := hws
      rw [List.length_cons, run_instr _ hc.1]
      have e1 : (m.exec s (.pop r)).reg .sp = s.reg .sp + m.word := by simp [exec, pop, hr]
      have e2 : (m.exec s (.pop r)).reg r = v := by simp [exec, pop, hv]
      have e3 : (m.exec s (.pop r)).mem = s.mem := by simp [exec, pop]
      have e4 : (m.exec s (.pop r)).pc = s.pc + 1 := by simp [exec, pop]
      have h := ih (s := m.exec s (.pop r)) hrs hnd (by simpa using hlen) hc.2
        (by rw [e1, e3]; exact hvs)
      have hmul : m.word * ((rs.length + 1 : Nat) : Int) = m.word * (rs.length : Int) + m.word := by
        rw [Int.natCast_add, Int.mul_add, Int.natCast_one, Int.mul_one]
      refine ⟨?_, ?_, ?_, fun q hq hqn => ?_, h.mem.trans e3, ?_⟩
      · rw [h.pc, e4]
        simp only [List.length_cons]
        omega
      · rw [h.sp, e1, List.length_cons, hmul]
        omega
      · rw [List.map_cons, h.reg, h.rest r (Ne.symm hr) hnr, e2]
      · obtain ⟨hqr, hqrs⟩ : q ≠ r ∧ q ∉ rs := by simpa using hqn
        rw [h.rest q hq hqrs]
        simp [exec, pop, hq, hqr]
      · rw [h.calls]
        simp [exec, pop]

theorem codeAt_append {a : Int} {is js : List Instr} :
    m.CodeAt a (is ++ js) ↔ m.CodeAt a is ∧ m.CodeAt (a + is.length) js := by
  induction is generalizing a with
  | nil => simp [CodeAt]
  | cons i is ih =>
    have hlen : a + 1 + (is.length : Int) = a + ((i :: is).length : Nat) := by
      rw [List.length_cons]
      omega
    rw [List.cons_append, CodeAt, CodeAt, ih, hlen, and_assoc]

/-- What a register restore and a return leave. -/
structure Restored (m : Machine) (rs : List Reg) (ws : List Int) (s s' : State) : Prop where
  reg : rs.map s'.reg = ws
  rest : ∀ r, r ≠ .sp → r ∉ rs → s'.reg r = s.reg r
  sp : s'.reg .sp = s.reg .sp + m.word * rs.length + m.word
  pc : s'.pc = s.mem (s.reg .sp + m.word * rs.length)
  mem : s'.mem = s.mem
  calls : s'.calls = s.calls

/-- **The end of a routine**: a register restore and a return. -/
theorem run_popRet (rs : List Reg) (hsp : .sp ∉ rs) (hnd : rs.Nodup) {ws : List Int}
    (hlen : rs.length = ws.length) {s : State} (hc : m.CodeAt s.pc (rs.map .pop ++ [.ret]))
    (hws : Words m.word s.mem (s.reg .sp) ws) :
    Restored m rs ws s (m.run (rs.length + 1) s) := by
  obtain ⟨hpops, hret, -⟩ := codeAt_append.1 hc
  have h := run_popAll rs hsp hnd hlen hpops hws
  rw [List.length_map, ← h.pc] at hret
  rw [run_add, run_instr 0 hret, run]
  generalize m.run rs.length s = p at h
  refine ⟨?_, fun r h1 h2 => ?_, ?_, ?_, h.mem, h.calls⟩
  · rw [← h.reg]
    refine List.map_congr_left fun r hr => ?_
    have hne : r ≠ .sp := by
      intro he
      rw [he] at hr
      exact hsp hr
    simp [exec, pop, hne]
  · simp [exec, pop, h1, h.rest r h1 h2]
  · simp [exec, pop, h.sp]
  · simp [exec, pop, h.sp, h.mem]

/-! ## Stack switches -/

/-- `r` points to a word that a stack pointer is kept in: exchange it for the current one, and
return on the stack that was there. -/
def swapStack (r : Reg) : List Instr := [.load .ax r 0, .store .sp r 0, .mov .sp .ax, .ret]

/-- What `swapStack` leaves. -/
structure Swapped (m : Machine) (r : Reg) (s s' : State) : Prop where
  mem : s'.mem = Function.update s.mem (s.reg r) (s.reg .sp)
  sp : s'.reg .sp = s.mem (s.reg r) + m.word
  pc : s'.pc = s'.mem (s.mem (s.reg r))
  rest : ∀ q, q ≠ .sp → q ≠ .ax → s'.reg q = s.reg q
  calls : s'.calls = s.calls

theorem run_swapStack {r : Reg} (hr : r ≠ .ax) {s : State} (hc : m.CodeAt s.pc (swapStack r)) :
    Swapped m r s (m.run 4 s) := by
  obtain ⟨h0, h1, h2, h3, -⟩ := hc
  rw [run_instr (i := .load .ax r 0) 3 h0, run_instr (i := .store .sp r 0) 2 (by simpa [exec]),
    run_instr (i := .mov .sp .ax) 1 (by simpa [exec]),
    run_instr (i := .ret) 0 (by simpa [exec]), run]
  refine ⟨?_, ?_, ?_, fun q h1 h2 => ?_, ?_⟩ <;> simp [exec, pop, *]

/-- What a register save and the call of `swapStack` leave: the registers and the return address
under the stack pointer that is kept, and control at what lies on the other stack. -/
structure Switched (m : Machine) (r : Reg) (rs : List Reg) (s s' : State) : Prop where
  top : s'.mem (s.reg r) = s.reg .sp - m.word * rs.length - m.word
  frame : Words m.word s'.mem (s.reg .sp - m.word * rs.length - m.word)
    ((s.pc + rs.length + 1) :: rs.reverse.map s.reg)
  pc : s'.pc = s'.mem (s.mem (s.reg r))
  sp : s'.reg .sp = s.mem (s.reg r) + m.word
  mem : ∀ a, a ≠ s.reg r → a < s.reg .sp - m.word * rs.length - m.word ∨ s.reg .sp ≤ a →
    s'.mem a = s.mem a
  calls : s'.calls = s.calls

/-- **A stack switch**: a register save and the call of `swapStack`. -/
theorem run_saveSwap (hw : 0 < m.word) {r : Reg} (hr : r ≠ .ax) (hrs : r ≠ .sp) (rs : List Reg)
    (hsp : .sp ∉ rs) {resume : Int} (hres : m.CodeAt resume (swapStack r)) {s : State}
    (hc : m.CodeAt s.pc (rs.map .push ++ [.call resume]))
    (hout : s.reg r < s.reg .sp - m.word * rs.length - m.word ∨ s.reg .sp ≤ s.reg r) :
    Switched m r rs s (m.run (rs.length + 5) s) := by
  obtain ⟨hpush, hcall, -⟩ := codeAt_append.1 hc
  have h := run_pushAll hw rs hsp hpush
  rw [List.length_map, ← h.pc] at hcall
  rw [run_add, show 5 = 1 + 4 from rfl, run_add, run_instr 0 hcall, run]
  generalize m.run rs.length s = p at h
  have hpos : 0 ≤ m.word * (rs.length : Int) := Int.mul_nonneg (by omega) (by omega)
  generalize hk : m.word * (rs.length : Int) = k at *
  obtain ⟨psp, pmem, pwords⟩ := And.intro h.sp (And.intro h.mem h.words)
  rw [hk] at psp
  rw [psp] at pmem pwords
  have hx := run_swapStack hr (s := m.exec p (.call resume)) (by simpa [exec] using hres)
  generalize m.run 4 (m.exec p (.call resume)) = q at hx
  have hreg : (m.exec p (.call resume)).reg r = s.reg r := by
    simp [exec, push, hrs, h.reg r hrs]
  have hspc : (m.exec p (.call resume)).reg .sp = s.reg .sp - k - m.word := by
    simp [exec, push, psp]
  have hmemc : (m.exec p (.call resume)).mem =
      Function.update p.mem (s.reg .sp - k - m.word) (s.pc + rs.length + 1) := by
    simp [exec, push, psp, h.pc]
  obtain ⟨qmem, qsp, qpc, -, qcalls⟩ := hx
  have hload : (m.exec p (.call resume)).mem (s.reg r) = s.mem (s.reg r) := by
    rw [hmemc, Function.update_of_ne (by omega), pmem _ (by omega)]
  rw [hreg, hspc, hmemc] at qmem
  rw [hreg, hload] at qsp qpc
  have hq : ∀ a, a ≠ s.reg r → a ≠ s.reg .sp - k - m.word → q.mem a = p.mem a := by
    intro a h1 h2
    rw [qmem, Function.update_of_ne h1, Function.update_of_ne h2]
  refine ⟨by rw [qmem, Function.update_self, hk], ⟨?_, ?_⟩, qpc, qsp, fun a ha hm => ?_, ?_⟩
  · rw [hk, qmem, Function.update_of_ne (by omega), Function.update_self]
  · rw [hk, show s.reg .sp - k - m.word + m.word = s.reg .sp - k by omega]
    refine pwords.keep hw fun b hb hb' => hq b ?_ (by omega)
    rw [List.length_map, List.length_reverse, hk] at hb'
    omega
  · rw [hk] at hm
    rw [hq a ha (by omega), pmem a (by omega)]
  · rw [qcalls]
    simpa [exec, push] using h.calls

end Machine

/-! ## Calling conventions -/

/-- What a calling convention leaves alone: the callee-saved registers, and the stack above the
return address less `home` bytes that belong to the callee. -/
structure Abi where
  word : Int
  saved : List Reg
  home : Int

/-- A callee entered in `s` comes back in `s'`, as the convention asks, having kept the stack
below `hi`. -/
structure Abi.Returns (c : Abi) (hi : Int) (s s' : State) : Prop where
  pc : s'.pc = s.mem (s.reg .sp)
  sp : s'.reg .sp = s.reg .sp + c.word
  reg : ∀ r ∈ c.saved, s'.reg r = s.reg r
  mem : ∀ a, s.reg .sp + c.word + c.home ≤ a → a < hi → s'.mem a = s.mem a

/-- What a call out of the text leaves, that was entered in `t` with `top` and `mem` before the
return address `a` was pushed. -/
structure Abi.Back (c : Abi) (m : Machine) (hi top a : Int) (mem : Int → Int) (t u : State) :
    Prop where
  pc : u.pc = a
  sp : u.reg .sp = top
  reg : ∀ r ∈ c.saved, u.reg r = t.reg r
  callee : u.mem = (m.callee t).mem
  mem : ∀ b, top + c.home ≤ b → b < hi → u.mem b = mem b
  calls : u.calls = t.calls ++ [t.entry]

/-- **A call out of the text** comes back to the instruction after it. -/
theorem Abi.Returns.back {c : Abi} {m : Machine} {hi top a : Int} {mem : Int → Int} {t : State}
    (h : c.Returns hi t (m.callee t)) (hw : c.word = m.word) (hpos : 0 < m.word)
    (hhome : 0 ≤ c.home) (hext : m.code t.pc = none) (hsp : t.reg .sp = top - m.word)
    (hmem : t.mem = Function.update mem (top - m.word) a) :
    c.Back m hi top a mem t (m.run 1 t) := by
  rw [Machine.run_callOut 0 hext, Machine.run]
  refine ⟨?_, ?_, h.reg, rfl, fun b h1 h2 => ?_, rfl⟩
  · rw [Machine.callOut_pc, h.pc, hsp, hmem, Function.update_self]
  · rw [Machine.callOut_reg, h.sp, hsp, hw]
    omega
  · rw [Machine.callOut_mem, h.mem b (by omega) h2, hmem, Function.update_of_ne (by omega)]

end X86
