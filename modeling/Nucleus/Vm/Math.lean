import Nucleus.Vm.Types

/-!
# `Nucleus.Vm.Math`: the numeral parsers

`nu_fparse` and `nu_iparse` of `vm/math.h`, on the machine's 32-bit words. The digit loops
read `s[0]` to `s[n - 1]`, so they are folds over `List.range n`. Their index is a
`nu_u32_t` and `n` is a `nu_size_t`: the fold is the loop for every numeral that a 32-bit
index can count.
-/

set_option autoImplicit false

namespace Nucleus.Vm

/-- `NU_FIX_FRAC`. -/
def fixFrac : Nat := 16

/-- `nu__fast_pow10`: the table `pow10` at `n`. -/
def fastPow10 (n : UInt32) : UInt32 :=
  [1, 10, 100, 1000, 10000, 100000, 1000000, 10000000].getD n.toNat 0

/-- The digit `c - '0'` as a `nu_u32_t`. -/
def digit (c : Char) : UInt32 := c.val - '0'.val

/-- The locals of the digit loop of `nu_fparse`. -/
structure FparseState where
  sign : Bool
  fracFlag : Bool
  inte : UInt32
  frac : UInt32
  dp : UInt32

/-- One turn of the digit loop of `nu_fparse`, at the character `c = s[i]`. -/
def fparseStep (s : List Char) (st : FparseState) (i : Nat) : Except Error FparseState :=
  let c := charAt s i
  if c = '-' then
    if i ≠ 0 then .error .invalidState else .ok { st with sign := true }
  else if c = '.' then
    .ok { st with fracFlag := true }
  else if c > '9' ∨ c < '0' then
    .error .invalidState
  else if st.fracFlag then
    if st.dp ≥ 6 then .error .invalidState
    else .ok { st with frac := st.frac * 10 + digit c, dp := st.dp + 1 }
  else
    .ok { st with inte := st.inte * 10 + digit c }

/-- One turn of the long division of `nu_fparse`: bit `i` of the fraction, most significant
bit first. The pair is `(frac, fixed)`. -/
def fparseBit (base : UInt32) (st : UInt32 × UInt32) (i : Nat) : UInt32 × UInt32 :=
  let frac := st.1 <<< 1
  if frac ≥ base then (frac - base, st.2 ||| (1 <<< (UInt32.ofNat (fixFrac - 1 - i))))
  else (frac, st.2)

/-- `nu_fparse`: the fixed-point value of `s[0..n)`. The sign branch is the source's
`!fixed + 1`, with the logical negation. -/
def fparse (s : List Char) (n : Nat) : Except Error Int32 := do
  let st ← (List.range n).foldlM (fparseStep s) ⟨false, false, 0, 0, 0⟩
  let fixed := st.inte <<< (UInt32.ofNat fixFrac)
  let base := fastPow10 st.dp
  let fixed := ((List.range fixFrac).foldl (fparseBit base) (st.frac, fixed)).2
  -- `!fixed + 1` in the source
  let fixed := if st.sign then (if fixed = 0 then 1 else 0) + 1 else fixed
  return fixed.toInt32

/-- One turn of the digit loop of `nu_iparse`. The pair is `(sign, value)`. -/
def iparseStep (s : List Char) (st : Bool × Int32) (i : Nat) : Except Error (Bool × Int32) :=
  let c := charAt s i
  if c = '-' then
    if i ≠ 0 then .error .invalidState else .ok (true, st.2)
  else if c > '9' ∨ c < '0' then
    .error .invalidState
  else
    .ok (st.1, st.2 * 10 + (digit c).toInt32)

/-- `nu_iparse`: the integer value of `s[0..n)`. -/
def iparse (s : List Char) (n : Nat) : Except Error Int32 := do
  let st ← (List.range n).foldlM (iparseStep s) (false, 0)
  return if st.1 then -st.2 else st.2

end Nucleus.Vm
