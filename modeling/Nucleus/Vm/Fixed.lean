import Nucleus.Vm.Math

/-!
# `Nucleus.Vm.Fixed`: integer and fixed-point arithmetic

`nu_fmul`, `nu_fdiv`, `nu_is_power_of_two` and `nu_log2` of `vm/math.h`. A `nu_fix_t` is a signed
word of 32 bits with `NU_FIX_FRAC` binary places. `nu_i64_t`, `nu_u64_t` and `nu_size_t` have 64
bits.
-/

set_option autoImplicit false

namespace Nucleus.Vm

/-- The product of `nu_fmul`: a conversion to `nu_u64_t` extends the sign first. -/
def fmulProduct (a b : Int32) : UInt64 := a.toInt64.toUInt64 * b.toInt64.toUInt64

/-- `nu_fmul`. -/
def fmul (a b : Int32) : Int32 := (fmulProduct a b >>> UInt64.ofNat fixFrac).toUInt32.toInt32

/-- The shifted dividend of `nu_fdiv`. -/
def fdivDividend (a : Int32) : Int64 := a.toInt64 <<< Int64.ofNat fixFrac

/-- `nu_fdiv`. -/
def fdiv (a b : Int32) : Int32 := (fdivDividend a / b.toInt64).toInt32

/-- `nu_is_power_of_two`. -/
def isPowerOfTwo (n : UInt64) : Bool := n &&& (n - 1) == 0

/-- A shift by one bit halves. -/
theorem toNat_halve (n : UInt64) : (n >>> 1).toNat = n.toNat / 2 := by
  rw [UInt64.toNat_shiftRight]
  exact Nat.shiftRight_eq_div_pow n.toNat 1

/-- The loop of `nu_log2`. -/
def log2Loop (result n : UInt64) : UInt64 :=
  if n ≠ 0 then log2Loop (result + 1) (n >>> 1) else result
termination_by n.toNat
decreasing_by
  rename_i hne
  have hpos : 0 < n.toNat := Nat.pos_of_ne_zero fun h => hne (UInt64.toNat_inj.mp h)
  rw [toNat_halve]
  exact Nat.div_lt_self hpos (by decide)

/-- `nu_log2`. -/
def log2 (n : UInt64) : UInt64 := log2Loop 0 (n >>> 1)

end Nucleus.Vm
