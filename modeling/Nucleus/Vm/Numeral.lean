import Nucleus.Lib.WordOps
import Nucleus.Vm.Math

/-!
# `Nucleus.Vm.Numeral`: the calls of the numeral parsers

`nu_fparse` and `nu_iparse` of `vm/math.h` as they are called: the index of their digit loops is a
`nu_u32_t`, and a call returns an error code and leaves something in `*v`. `Except.ok` is
`NU_ERROR_NONE` here too.

`nu_fparse` takes the operations on words as an argument, so that it can be run with those of the
machine and with operations that stop where a word wraps around.
-/

set_option autoImplicit false

namespace Nucleus.Vm

open Nucleus.Lib

/-- What a call leaves behind: the error code and the content of `*v`. -/
abbrev ParseResult : Type := Except Error Unit × Int32

/-- One turn of the digit loop of `nu_fparse`, at the character `c = s[i]`. -/
def fparseTurn (ops : WordOps) (s : List Char) (st : FparseState) (i : UInt32) :
    ExceptT Error Option FparseState := do
  let c := charAt s i.toNat
  if c = '-' then
    -- a minus is a sign at the first character only
    if i ≠ 0 then throw .invalidState else return { st with sign := true }
  else if c = '.' then
    return { st with fracFlag := true }
  else if c > '9' ∨ c < '0' then
    throw .invalidState
  else if st.fracFlag then
    -- a seventh place is not read
    if st.dp ≥ 6 then throw .invalidState
    else
      let frac ← ops.add (← ops.mul st.frac 10) (← ops.sub c.val '0'.val)
      let dp ← ops.add st.dp 1
      return { st with frac, dp }
  else
    let inte ← ops.add (← ops.mul st.inte 10) (← ops.sub c.val '0'.val)
    return { st with inte }

/-- One turn of the long division of `nu_fparse`. The pair is `(frac, fixed)`. -/
def fparseDivide (ops : WordOps) (base : UInt32) (st : UInt32 × UInt32) (i : UInt32) :
    ExceptT Error Option (UInt32 × UInt32) := do
  let frac ← ops.shl st.1 1
  if frac ≥ base then
    let place ← ops.sub (← ops.sub (UInt32.ofNat fixFrac) 1) i
    let fixed := st.2 ||| (← ops.shl 1 place)
    let frac ← ops.sub frac base
    return (frac, fixed)
  else return (frac, st.2)

/-- What `nu_fparse` does behind its digit loop. -/
def fparseBuild (ops : WordOps) (st : FparseState) : ExceptT Error Option Int32 := do
  let fixed ← ops.shl st.inte (UInt32.ofNat fixFrac)
  let base := fastPow10 st.dp
  let (_, fixed) ← wordLoop ops (fparseDivide ops base) fixFrac (fixFrac + 1) 0 (st.frac, fixed)
  if st.sign then
    -- `!fixed + 1` in the source, where the complement is meant
    let fixed ← ops.add (if fixed = 0 then 1 else 0) 1
    return fixed.toInt32
  else return fixed.toInt32

/-- The error code and `*v` behind a computation of the value. -/
def parseResult (v : Int32) : Except Error Int32 → ParseResult
  | .error e => (.error e, v)
  | .ok r => (.ok (), r)

/-- `nu_fparse(s, n, &v)`, none if its digit loop takes more than `fuel` turns. -/
def fparseCall (ops : WordOps) (fuel : Nat) (s : List Char) (n : Nat) (v : Int32) :
    Option ParseResult :=
  let value : ExceptT Error Option Int32 := do
    let st ← wordLoop ops (fparseTurn ops s) n fuel 0 ⟨false, false, 0, 0, 0⟩
    fparseBuild ops st
  (value.run).map (parseResult v)

/-- `nu_iparse(s, n, &v)`, none if its digit loop takes more than `fuel` turns. -/
def iparseCall (fuel : Nat) (s : List Char) (n : Nat) (v : Int32) : Option ParseResult :=
  (indexLoop (iparseStep s) n fuel 0 (false, 0)).map fun r =>
    parseResult v (r.map fun st => if st.1 then -st.2 else st.2)

end Nucleus.Vm
