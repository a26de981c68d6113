import Mathlib.Algebra.Order.Ring.Int
import Nucleus.Vm.Fixed

/-!
# `Nucleus.Vm.Interpreter`: the interpreter

`nu__interpreter_t` of `vm/interpreter.h`: a stack of 256 words that a program of one-word
instructions works on. A read outside the instructions, an access outside the stack, a signed
operation that overflows and a division by zero give `none`: the source promises nothing from there
on.
-/

set_option autoImplicit false

namespace Nucleus.Vm

/-- `nu_opcode_t`. -/
inductive Opcode where
  | add | sub | muli | mulf | divi | divf | unknown
  deriving DecidableEq, Repr

/-- `NU_STACK_SIZE`. -/
def stackSize : Nat := 256

/-- `NU_GET_OPCODE`, a number from `NU_OP_UNKNOWN` on as `unknown`. -/
def getOpcode (i : UInt16) : Opcode :=
  match (i &&& 0xff).toNat with
  | 0 => .add
  | 1 => .sub
  | 2 => .muli
  | 3 => .mulf
  | 4 => .divi
  | 5 => .divf
  | _ => .unknown

/-- `nu__interpreter_t`. The instructions and the constants are what the two pointers point to,
nothing for `NU_NULL`. -/
structure Interpreter where
  sp : UInt32
  lp : UInt32
  pc : UInt32
  stack : Vector UInt32 stackSize
  locals : Vector UInt32 stackSize
  instructions : List UInt16
  constants : List UInt32

/-- `nu__interpreter_init`. -/
def interpreterInit : Interpreter :=
  { sp := 0
    lp := 0
    pc := 0
    stack := Vector.replicate stackSize 0
    locals := Vector.replicate stackSize 0
    instructions := []
    constants := [] }

/-- `inte->stack[--inte->sp]`, as a `nu_i32_t`. -/
def pop (inte : Interpreter) : Option (Int32 × Interpreter) :=
  let sp := inte.sp - 1
  -- below the stack there is no word
  inte.stack[sp.toNat]?.map fun word => (word.toInt32, { inte with sp })

/-- `inte->stack[inte->sp++] = r`. -/
def push (inte : Interpreter) (r : Int32) : Option Interpreter :=
  if h : inte.sp.toNat < stackSize then
    some { inte with stack := inte.stack.set inte.sp.toNat r.toUInt32 h, sp := inte.sp + 1 }
  else none

/-- The result of a signed operation, unless it overflows. -/
def signed (x : Int) : Option Int32 :=
  if -2 ^ 31 ≤ x ∧ x < 2 ^ 31 then some (Int32.ofInt x) else none

/-- `a / b` of two `nu_i32_t`. -/
def divide (a b : Int32) : Option Int32 := if b = 0 then none else signed (a.toInt.tdiv b.toInt)

/-- `nu_fdiv(a, b)`. -/
def fdivide (a b : Int32) : Option Int32 := if b = 0 then none else some (fdiv a b)

/-- A case of `nu__interpreter_exec`: two words off the stack, the topmost one first, and the result
of the operator on it. -/
def execBinary (op : Int32 → Int32 → Option Int32) (inte : Interpreter) : Option Interpreter := do
  let (a, inte) ← pop inte
  let (b, inte) ← pop inte
  let r ← op a b
  push inte r

/-- `nu__interpreter_exec`. -/
def interpreterExec (inte : Interpreter) : Option Interpreter := do
  let instruction ← inte.instructions[inte.pc.toNat]?
  let inte := { inte with pc := inte.pc + 1 }
  match getOpcode instruction with
  | .add => execBinary (fun a b => signed (a.toInt + b.toInt)) inte
  | .sub => execBinary (fun a b => signed (a.toInt - b.toInt)) inte
  | .muli => execBinary (fun a b => signed (a.toInt * b.toInt)) inte
  | .mulf => execBinary (fun a b => some (fmul a b)) inte
  | .divi => execBinary divide inte
  | .divf => execBinary fdivide inte
  -- any other opcode is passed over
  | .unknown => some inte

/-- `n` calls of `nu__interpreter_exec`. -/
def interpreterRun : Nat → Interpreter → Option Interpreter
  | 0, inte => some inte
  | n + 1, inte => (interpreterExec inte).bind (interpreterRun n)

end Nucleus.Vm
