import Nucleus.Spec.Fixed

/-!
# `Nucleus.Proofs.FixedPoint`: the arithmetic of `nu_fmul` and `nu_fdiv`

The words of 64 bits are integers modulo `2 ^ 64`, and what wraps there is lost by the conversion to
32 bits: `nu_fmul` is the product rounded down, modulo `2 ^ 32` (`toInt_fmul`), and `nu_fdiv` the
quotient rounded toward zero (`toInt_fdiv`). The laws are then those of `Nucleus.Lib.FixedPoint`.
-/

set_option autoImplicit false

namespace Nucleus.Proofs

open Nucleus.Lib
open Nucleus.Vm
open Nucleus.Spec

/-! ### The product -/

/-- The words of 64 bits, signed and unsigned. -/
theorem toInt_eq_bmod (x : Int64) : x.toInt = (x.toUInt64.toNat : ℤ).bmod (2 ^ 64) :=
  BitVec.toInt_eq_toNat_bmod x.toBitVec

/-- The bits of a signed word are its remainder. -/
theorem toNat_eq_emod (x : Int64) : (x.toUInt64.toNat : ℤ) = x.toInt % (2 ^ 64 : Nat) := by
  have hlt : (x.toUInt64.toNat : ℤ) < (2 ^ 64 : Nat) := Int.ofNat_lt.mpr x.toUInt64.toNat_lt
  rw [toInt_eq_bmod, Int.bmod_emod, Int.emod_eq_of_lt (Int.natCast_nonneg _) hlt]

/-- The unsigned product of sign-extended numbers is their product modulo `2 ^ 64`. -/
theorem toNat_fmulProduct (a b : Int32) :
    ((fmulProduct a b).toNat : ℤ) = a.toInt * b.toInt % (2 ^ 64 : Nat) := by
  rw [fmulProduct, UInt64.toNat_mul, Int.natCast_emod, Int.natCast_mul, toNat_eq_emod,
    toNat_eq_emod, ← Int.mul_emod, Int32.toInt_toInt64, Int32.toInt_toInt64]

/-- `nu_fmul` rounds the product down, modulo `2 ^ 32`. -/
theorem toInt_fmul (a b : Int32) :
    (fmul a b).toInt = (fixedMul (2 ^ 16) a.toInt b.toInt).bmod (2 ^ 32) := by
  have hshift : (fmulProduct a b >>> UInt64.ofNat fixFrac).toNat =
      (fmulProduct a b).toNat / 2 ^ 16 := by
    rw [UInt64.toNat_shiftRight]
    exact Nat.shiftRight_eq_div_pow _ 16
  have hword : (fmul a b).toInt =
      (((fmulProduct a b).toNat / 2 ^ 16 % 2 ^ 32 : Nat) : ℤ).bmod (2 ^ 32) := by
    rw [← hshift, ← UInt64.toNat_toUInt32]
    exact BitVec.toInt_eq_toNat_bmod _
  -- the bits that the product has lost are above those of the result
  have hlow : (((fmulProduct a b).toNat / 2 ^ 16 % 2 ^ 32 : Nat) : ℤ) =
      fixedMul (2 ^ 16) a.toInt b.toInt % (2 ^ 32 : Nat) := by
    have hproduct := toNat_fmulProduct a b
    rw [fixedMul]
    omega
  rw [hword, hlow, Int.emod_bmod]

/-- The product rounded down is that of the library, with 16 fractional bits. -/
theorem floorProduct_eq (a b : Int32) :
    floorProduct a b = fixedMul (2 ^ 16) a.toInt b.toInt := by
  have hquot := Rat.floor_intCast_div_natCast (a.toInt * b.toInt) (2 ^ 16)
  push_cast at hquot
  exact hquot

/-- A product that has room is exact. -/
theorem toInt_fmul_of_inWord {a b : Int32} (h : InWord 31 (floorProduct a b)) :
    (fmul a b).toInt = floorProduct a b := by
  rw [toInt_fmul, floorProduct_eq] at *
  exact bmod_eq_self h

/-- The product does not depend on the order of its factors. -/
theorem fmul_comm (a b : Int32) : fmul a b = fmul b a := by
  rw [← Int32.toInt_inj, toInt_fmul, toInt_fmul, fixedMul_comm]

/-- `nu_fmul` is the product rounded down. -/
theorem fmul_floorProduct (a b : Int32) : FloorProduct a b where
  congruent := by
    rw [toInt_fmul, floorProduct_eq]
    exact bmod_modEq _ _
  exact := toInt_fmul_of_inWord
  comm := fmul_comm a b
  mono_left := by
    intro a' hb ha hroom hroom'
    rw [Int32.le_iff_toInt_le, toInt_fmul_of_inWord hroom, toInt_fmul_of_inWord hroom',
      floorProduct_eq, floorProduct_eq]
    exact fixedMul_mono_left (by decide) (Int32.le_iff_toInt_le.mp hb)
      (Int32.le_iff_toInt_le.mp ha)
  mono_right := by
    intro b' ha hb hroom hroom'
    rw [Int32.le_iff_toInt_le, toInt_fmul_of_inWord hroom, toInt_fmul_of_inWord hroom',
      floorProduct_eq, floorProduct_eq]
    exact fixedMul_mono_right (by decide) (Int32.le_iff_toInt_le.mp ha)
      (Int32.le_iff_toInt_le.mp hb)

/-! ### The quotient -/

/-- The dividend has room in 64 bits. -/
theorem toInt_fdivDividend (a : Int32) : (fdivDividend a).toInt = a.toInt * 2 ^ 16 := by
  have hlow := Int32.le_toInt a
  have hhigh := Int32.toInt_lt a
  have hunsigned : (fdivDividend a).toUInt64 = a.toInt64.toUInt64 <<< UInt64.ofNat 16 := rfl
  have hshift : (((fdivDividend a).toUInt64.toNat : Nat) : ℤ) =
      a.toInt * 2 ^ 16 % (2 ^ 64 : Nat) := by
    have hextend := toNat_eq_emod a.toInt64
    rw [Int32.toInt_toInt64] at hextend
    rw [hunsigned, UInt64.toNat_shiftLeft]
    show ((a.toInt64.toUInt64.toNat <<< 16 % 2 ^ 64 : Nat) : ℤ) = _
    rw [Nat.shiftLeft_eq]
    omega
  rw [toInt_eq_bmod, hshift, Int.emod_bmod]
  exact bmod_eq_self ⟨by omega, by omega⟩

section
variable {a b : Int32}

/-- A quotient is not larger than its dividend, so it has room too. -/
theorem toInt_fdivQuotient (a b : Int32) :
    (fdivDividend a / b.toInt64).toInt = truncQuotient a b := by
  have hlow := Int32.le_toInt a
  have hhigh := Int32.toInt_lt a
  have hroom := Int.natAbs_tdiv_le_natAbs (a.toInt * 2 ^ 16) b.toInt
  rw [Int64.toInt_div, toInt_fdivDividend, Int32.toInt_toInt64, truncQuotient]
  refine bmod_eq_self ⟨?_, ?_⟩
  · omega
  · omega

/-- The quotient cut off towards zero is the result when it fits into the word. -/
theorem toInt_fdiv (h : InWord 31 (truncQuotient a b)) : (fdiv a b).toInt = truncQuotient a b := by
  rw [fdiv, Int64.toInt_toInt32, toInt_fdivQuotient]
  exact bmod_eq_self h

/-! ### There and back -/

variable (hb : b.toInt ≠ 0) (h : InWord 31 (truncQuotient a b))
include hb h

/-- The product is a little smaller than the shifted dividend. -/
theorem toInt_roundTripProduct :
    (fmulProduct (fdiv a b) b).toInt64.toInt = truncQuotient a b * b.toInt := by
  have hproduct := toNat_fmulProduct (fdiv a b) b
  rw [toInt_fdiv h] at hproduct
  have hmul : truncQuotient a b * b.toInt = _ := fixedDiv_mul (2 ^ 16) a.toInt b.toInt
  have hrem := natAbs_tmod_lt hb (a.toInt * 2 ^ 16)
  have hlow := Int32.le_toInt a
  have hhigh := Int32.toInt_lt a
  have hblow := Int32.le_toInt b
  have hbhigh := Int32.toInt_lt b
  have habs : |b.toInt| = b.toInt.natAbs := Int.abs_eq_natAbs _
  rw [toInt_eq_bmod, UInt64.toUInt64_toInt64, hproduct, Int.emod_bmod]
  refine bmod_eq_self ⟨?_, ?_⟩
  · rw [hmul]
    omega
  · rw [hmul]
    omega

/-- The way back stays in the words of 32 bits. -/
theorem toInt_roundTrip :
    (fmul (fdiv a b) b).toInt =
      fixedMul (2 ^ 16) (fixedDiv (2 ^ 16) a.toInt b.toInt) b.toInt := by
  have hquot : (fdiv a b).toInt = fixedDiv (2 ^ 16) a.toInt b.toInt := toInt_fdiv h
  have hlow := Int32.le_toInt a
  have hhigh := Int32.toInt_lt a
  have hblow := Int32.le_toInt b
  have hbhigh := Int32.toInt_lt b
  have habs : |b.toInt| = b.toInt.natAbs := Int.abs_eq_natAbs _
  -- the product lies between zero and the dividend, but for a step
  rw [toInt_fmul, hquot]
  refine bmod_eq_self ?_
  rcases Int.le_total 0 a.toInt with ha | ha
  · obtain ⟨hmin, hmax⟩ := fixedMul_fixedDiv_of_nonneg (show (0 : ℤ) < 2 ^ 16 by decide) hb ha
    exact ⟨by omega, by omega⟩
  · obtain ⟨hmin, hmax⟩ := fixedMul_fixedDiv_of_nonpos (show (0 : ℤ) < 2 ^ 16 by decide) hb ha
    exact ⟨by omega, by omega⟩

end

/-- `nu_fmul` undoes `nu_fdiv`, but for an error toward zero. -/
theorem fmul_fdiv_roundTrip {a b : Int32} (hb : b ≠ 0) (h : InWord 31 (truncQuotient a b)) :
    RoundTrip a b := by
  have hne : b.toInt ≠ 0 := fun hzero => hb (Int32.toInt_inj.mp hzero)
  refine ⟨fun ha => ?_, fun ha => ?_, toInt_fdivDividend a, toInt_fdivQuotient a b,
    toInt_roundTripProduct hne h⟩
  · rw [toInt_roundTrip hne h]
    exact fixedMul_fixedDiv_of_nonneg (by decide) hne ha
  · rw [toInt_roundTrip hne h]
    exact fixedMul_fixedDiv_of_nonpos (by decide) hne ha.le

/-- The smallest number over three. -/
theorem fmul_fdiv_roundTrip_min : RoundTrip (-2147483648) (-196608) :=
  fmul_fdiv_roundTrip (by decide) ⟨by decide, by decide⟩

end Nucleus.Proofs
