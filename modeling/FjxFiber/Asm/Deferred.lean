import FjxFiber.Lib.X86

/-!
# What `src/fiber.c` writes for the trampolines

`fiber_add_deferred` and `fiber_spawn_stack_top` write the words that `fiber_load_unaryop` and
`fiber_load_entrance` run on, below a saved `stack_top` and at the top of a new stack. They are C,
compiled for every target: the width of a pointer and the address of the routine are parameters.

`History.frames`: the operations that are deferred on a saved context lie on its stack as a list of
frames, the last deferred at its top, and the saved stack is as it was.
-/

set_option autoImplicit false

namespace Asm

open X86

/-! ## The words of a new fiber -/

/-- `fiber_spawn_stack_top` on the memory whose `stack_top` is `memTop`: what it returns, and the
memory it leaves. -/
def fiberSpawnStackTop (word loadEntrance memTop sched fiberExit entrance data : Int)
    (mem : Int → Int) : Int × (Int → Int) :=
  let stackPtr := memTop
  let mem := Function.update mem (stackPtr - word) sched
  let mem := Function.update mem (stackPtr - 2 * word) fiberExit
  let mem := Function.update mem (stackPtr - 3 * word) data
  let mem := Function.update mem (stackPtr - 4 * word) entrance
  let mem := Function.update mem (stackPtr - 5 * word) loadEntrance
  (stackPtr - 5 * word, mem)

section
variable {word : Int}

theorem fiberSpawnStackTop_words (hw : 0 < word) {T : Int}
    (loadEntrance sched fiberExit entrance data : Int) (mem : Int → Int) :
    Words word (fiberSpawnStackTop word loadEntrance T sched fiberExit entrance data mem).2
      (T - 5 * word) [loadEntrance, entrance, data, fiberExit, sched] := by
  have h : ∀ a, (fiberSpawnStackTop word loadEntrance T sched fiberExit entrance data mem).2 a =
      if a = T - 5 * word then loadEntrance else if a = T - 4 * word then entrance
      else if a = T - 3 * word then data else if a = T - 2 * word then fiberExit
      else if a = T - word then sched else mem a := by
    intro a
    simp [fiberSpawnStackTop, Function.update_apply]
  refine ⟨?_, ?_, ?_, ?_, ?_, trivial⟩
  · rw [h, if_pos rfl]
  · rw [h, if_neg (by omega), if_pos (by omega)]
  · rw [h, if_neg (by omega), if_neg (by omega), if_pos (by omega)]
  · rw [h, if_neg (by omega), if_neg (by omega), if_neg (by omega), if_pos (by omega)]
  · rw [h, if_neg (by omega), if_neg (by omega), if_neg (by omega), if_neg (by omega),
      if_pos (by omega)]

end

/-! ## The frame of a deferred operation -/

/-- `fiber_add_deferred(f, cleanup, data)`, where `f->stack_top` is the word at `f`. -/
def fiberAddDeferred (word loadUnaryop f cleanup data : Int) (mem : Int → Int) : Int → Int :=
  let stackPtr := mem f
  let mem := Function.update mem (stackPtr - word) 0
  let mem := Function.update mem (stackPtr - 2 * word) data
  let mem := Function.update mem (stackPtr - 3 * word) cleanup
  let mem := Function.update mem (stackPtr - 4 * word) loadUnaryop
  Function.update mem f (stackPtr - 4 * word)

/-- The frames of the deferred operations `ops`, the top one first, down to the saved frame. -/
def Frames (word loadUnaryop : Int) (mem : Int → Int) (base : Int) : Int → List (Int × Int) → Prop
  | top, [] => top = base
  | top, (op, arg) :: ops =>
    Words word mem top [loadUnaryop, op, arg, 0] ∧
      Frames word loadUnaryop mem base (top + 4 * word) ops

/-- What may happen to a context between a switch away from it and a switch back, as far as its
own stack up to `hi` is concerned: the memory changes elsewhere, and operations are deferred on it
through descriptors that hold its `stack_top`. -/
inductive History (word loadUnaryop hi : Int) (mem₀ : Int → Int) (top₀ : Int) :
    (Int → Int) → Int → List (Int × Int) → Prop
  | saved : History word loadUnaryop hi mem₀ top₀ mem₀ top₀ []
  | elsewhere {mem mem' : Int → Int} {top : Int} {ops : List (Int × Int)}
      (h : History word loadUnaryop hi mem₀ top₀ mem top ops)
      (hkeep : ∀ a, top ≤ a → a < hi → mem' a = mem a) :
      History word loadUnaryop hi mem₀ top₀ mem' top ops
  | deferred {mem : Int → Int} {top f op arg : Int} {ops : List (Int × Int)}
      (h : History word loadUnaryop hi mem₀ top₀ mem top ops) (hf : mem f = top)
      (hout : f < top - 4 * word ∨ hi ≤ f) :
      History word loadUnaryop hi mem₀ top₀ (fiberAddDeferred word loadUnaryop f op arg mem)
        (top - 4 * word) ((op, arg) :: ops)

/-- From `s`, at the top of the frames of `ops`, each operation is a function of another object file
and keeps the convention in the call that is made of it: `enter` steps from its frame it is entered,
and `whole` steps from its frame the next one is at the top. -/
def Conforms (m : Machine) (abi : Abi) (hi : Int) (enter whole : Nat) :
    State → List (Int × Int) → Prop
  | _, [] => True
  | s, (op, _) :: ops =>
    (m.code op = none ∧ abi.Returns hi (m.run enter s) (m.callee (m.run enter s))) ∧
      Conforms m abi hi enter whole (m.run whole s) ops

section
variable {word loadUnaryop hi base top : Int} {mem mem' : Int → Int} {ops : List (Int × Int)}

theorem Frames.height (h : Frames word loadUnaryop mem base top ops) :
    base = top + 4 * word * ops.length := by
  induction ops generalizing top with
  | nil =>
    rw [List.length_nil, Int.natCast_zero, Int.mul_zero, Int.add_zero]
    exact h.symm
  | cons o ops ih =>
    rw [ih h.2, List.length_cons, Int.natCast_add, Int.mul_add, Int.natCast_one, Int.mul_one]
    omega

theorem Frames.le (hw : 0 < word) (h : Frames word loadUnaryop mem base top ops) : top ≤ base := by
  induction ops generalizing top with
  | nil => exact Int.le_of_eq h
  | cons o ops ih =>
    have hle := ih h.2
    omega

theorem Frames.keep (hw : 0 < word) (h : Frames word loadUnaryop mem base top ops)
    (hm : ∀ a, top ≤ a → a < base → mem' a = mem a) :
    Frames word loadUnaryop mem' base top ops := by
  induction ops generalizing top with
  | nil => exact h
  | cons o ops ih =>
    have hle := h.2.le hw
    refine ⟨h.1.keep hw fun a h1 h2 => hm a h1 ?_, ih h.2 fun a h1 h2 => hm a (by omega) h2⟩
    have hlen : word * ([loadUnaryop, o.1, o.2, 0].length : Int) = 4 * word := Int.mul_comm _ _
    omega

theorem fiberAddDeferred_spec (hw : 0 < word) {f : Int} (loadUnaryop op arg : Int)
    (hout : f < mem f - 4 * word ∨ hi ≤ f) (hhi : mem f ≤ hi) :
    Words word (fiberAddDeferred word loadUnaryop f op arg mem) (mem f - 4 * word)
        [loadUnaryop, op, arg, 0] ∧
      ∀ a, a ≠ f → a < mem f - 4 * word ∨ mem f ≤ a →
        (fiberAddDeferred word loadUnaryop f op arg mem) a = mem a := by
  have h : ∀ a, a ≠ f → (fiberAddDeferred word loadUnaryop f op arg mem) a =
      if a = mem f - 4 * word then loadUnaryop else if a = mem f - 3 * word then op
      else if a = mem f - 2 * word then arg else if a = mem f - word then 0 else mem a := by
    intro a ha
    simp [fiberAddDeferred, Function.update_apply, ha]
  refine ⟨⟨?_, ?_, ?_, ?_, trivial⟩, fun a ha hr => ?_⟩
  · rw [h _ (by omega), if_pos rfl]
  · rw [h _ (by omega), if_neg (by omega), if_pos (by omega)]
  · rw [h _ (by omega), if_neg (by omega), if_neg (by omega), if_pos (by omega)]
  · rw [h _ (by omega), if_neg (by omega), if_neg (by omega), if_neg (by omega), if_pos (by omega)]
  · rw [h a ha, if_neg (by omega), if_neg (by omega), if_neg (by omega), if_neg (by omega)]

/-- **The frames of the deferred operations lie on the saved stack, which is kept.** -/
theorem History.frames (hw : 0 < word) {mem₀ : Int → Int} {top₀ : Int}
    (h : History word loadUnaryop hi mem₀ top₀ mem top ops) (hhi : top₀ < hi) :
    Frames word loadUnaryop mem top₀ top ops ∧ ∀ a, top₀ ≤ a → a < hi → mem a = mem₀ a := by
  induction h with
  | saved => exact ⟨rfl, fun _ _ _ => rfl⟩
  | elsewhere _ hkeep ih =>
    have hle := ih.1.le hw
    exact ⟨ih.1.keep hw fun a h1 h2 => hkeep a h1 (by omega),
      fun a h1 h2 => (hkeep a (by omega) h2).trans (ih.2 a h1 h2)⟩
  | @deferred mem top f op arg ops _ hf hout ih =>
    have hle := ih.1.le hw
    subst hf
    obtain ⟨hwords, hm⟩ := fiberAddDeferred_spec hw loadUnaryop op arg hout (by omega)
    refine ⟨⟨hwords, ?_⟩, fun a h1 h2 => (hm a (by omega) (by omega)).trans (ih.2 a h1 h2)⟩
    rw [show mem f - 4 * word + 4 * word = mem f by omega]
    exact ih.1.keep hw fun a h1 h2 => hm a (by omega) (by omega)

end

end Asm
