import Nucleus.Lib.Reduce
import Nucleus.Vm.Interpreter

/-!
# `Nucleus.Spec.Interpreter`: what the interpreter computes

An instruction is an operator on the two topmost words or does nothing (`operatorOf`). A run folds
the topmost word over the words below it, with the operators of its instructions. `Reduced` says
this of the words, and that a run changes nothing else: neither what is above the words nor a local.
-/

set_option autoImplicit false

namespace Nucleus.Spec

open Nucleus.Lib
open Nucleus.Vm

/-- The operator of an instruction, on the topmost word and the one below it. -/
def operatorOf (instruction : UInt16) : Option (Int32 → Int32 → Option Int32) :=
  match getOpcode instruction with
  | .add => some fun a b => signed (a.toInt + b.toInt)
  | .sub => some fun a b => signed (a.toInt - b.toInt)
  | .muli => some fun a b => signed (a.toInt * b.toInt)
  | .mulf => some fun a b => some (fmul a b)
  | .divi => some divide
  | .divf => some fdivide
  | .unknown => none

/-- The instructions of the next `n` calls. -/
def upcoming (inte : Interpreter) (n : Nat) : List UInt16 :=
  (inte.instructions.drop inte.pc.toNat).take n

/-- The words on the stack, the topmost one first. -/
def wordsOf (inte : Interpreter) : List Int32 :=
  (inte.stack.toList.take inte.sp.toNat).reverse.map (·.toInt32)

/-- From `inte`, the program comes to `inte'` by `n` instructions. -/
structure Reduced (n : Nat) (inte inte' : Interpreter) : Prop where
  words : Folded ((upcoming inte n).filterMap operatorOf) (wordsOf inte) (wordsOf inte')
  sp : inte'.sp.toNat ≤ inte.sp.toNat
  pc : inte'.pc.toNat = inte.pc.toNat + n
  lp : inte'.lp = inte.lp
  locals : inte'.locals = inte.locals
  instructions : inte'.instructions = inte.instructions
  constants : inte'.constants = inte.constants
  above : ∀ (i : Nat) (hi : i < stackSize), inte.sp.toNat ≤ i + 1 → inte'.stack[i] = inte.stack[i]

end Nucleus.Spec
