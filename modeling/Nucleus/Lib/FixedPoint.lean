import Mathlib.Data.Int.ModEq
import Mathlib.Algebra.Order.Ring.Int
import Mathlib.Tactic.Ring
import Mathlib.Tactic.Linarith

/-!
# `Nucleus.Lib.FixedPoint`: fixed-point numbers

A fixed-point number is an integer that counts steps, `scale` of them to the unit. A product is
rounded down (`fixedMul`) and a quotient toward zero (`fixedDiv`), so the product of a quotient and
its divisor misses the dividend toward zero, by less than the divisor has units and one step
(`fixedMul_fixedDiv_of_nonneg`, `fixedMul_fixedDiv_of_nonpos`).
-/

set_option autoImplicit false

namespace Nucleus.Lib

/-- The product, rounded down. -/
def fixedMul (scale a b : ℤ) : ℤ := a * b / scale

/-- The quotient, rounded toward zero. -/
def fixedDiv (scale a b : ℤ) : ℤ := (a * scale).tdiv b

variable {scale a a' b b' : ℤ}

/-- The factors may be exchanged. -/
theorem fixedMul_comm (scale a b : ℤ) : fixedMul scale a b = fixedMul scale b a := by
  rw [fixedMul, fixedMul, Int.mul_comm]

/-- Multiplication by what is not negative keeps the order, on the left. -/
theorem fixedMul_mono_left (hscale : 0 < scale) (hb : 0 ≤ b) (h : a ≤ a') :
    fixedMul scale a b ≤ fixedMul scale a' b :=
  Int.ediv_le_ediv hscale (Int.mul_le_mul_of_nonneg_right h hb)

/-- Multiplication by what is not negative keeps the order, on the right. -/
theorem fixedMul_mono_right (hscale : 0 < scale) (ha : 0 ≤ a) (h : b ≤ b') :
    fixedMul scale a b ≤ fixedMul scale a b' := by
  rw [fixedMul_comm scale a b, fixedMul_comm scale a b']
  exact fixedMul_mono_left hscale ha h

/-! ### The remainder of a quotient -/

/-- What a division loses is the remainder, which has the sign of the dividend. -/
theorem fixedDiv_mul (scale a b : ℤ) :
    fixedDiv scale a b * b = a * scale - (a * scale).tmod b := by
  have h := Int.tmod_add_tdiv_mul (a * scale) b
  rw [fixedDiv]
  omega

/-- A remainder is smaller than its divisor. -/
theorem natAbs_tmod_lt (hb : b ≠ 0) (a : ℤ) : ((a.tmod b).natAbs : ℤ) < |b| := by
  rw [Int.natAbs_tmod, Int.abs_eq_natAbs]
  have hpos : 0 < b.natAbs := Int.natAbs_pos.mpr hb
  exact_mod_cast Nat.mod_lt _ hpos

/-- A remainder has the sign of the dividend. -/
theorem tmod_nonpos (h : a ≤ 0) (b : ℤ) : a.tmod b ≤ 0 := by
  have hneg := Int.tmod_nonneg b (Int.neg_nonneg_of_nonpos h)
  rw [Int.neg_tmod] at hneg
  omega

/-! ### A quotient times its divisor -/

section
variable (hscale : 0 < scale) (hb : b ≠ 0)
include hscale hb

/-- From a number that is not negative. -/
theorem fixedMul_fixedDiv_of_nonneg (ha : 0 ≤ a) :
    a - (|b| / scale + 1) ≤ fixedMul scale (fixedDiv scale a b) b ∧
      fixedMul scale (fixedDiv scale a b) b ≤ a := by
  have hrem := Int.tmod_nonneg b (Int.mul_nonneg ha hscale.le)
  have hlt := natAbs_tmod_lt hb (a * scale)
  have hroom := Int.lt_ediv_add_one_mul_self |b| hscale
  rw [fixedMul, fixedDiv_mul]
  constructor
  · rw [Int.le_ediv_iff_mul_le hscale, Int.sub_mul]
    omega
  · refine Int.ediv_le_of_le_mul hscale ?_
    omega

/-- From a number that is not positive. -/
theorem fixedMul_fixedDiv_of_nonpos (ha : a ≤ 0) :
    a ≤ fixedMul scale (fixedDiv scale a b) b ∧
      fixedMul scale (fixedDiv scale a b) b ≤ a + |b| / scale := by
  have hrem := tmod_nonpos (Int.mul_nonpos_of_nonpos_of_nonneg ha hscale.le) b
  have hlt := natAbs_tmod_lt hb (a * scale)
  have hroom : a + |b| / scale = (|b| + a * scale) / scale := by
    rw [Int.add_mul_ediv_right _ _ hscale.ne', Int.add_comm]
  rw [fixedMul, fixedDiv_mul]
  constructor
  · rw [Int.le_ediv_iff_mul_le hscale]
    omega
  · rw [hroom]
    exact Int.ediv_le_ediv hscale (by omega)

end

/-! ### Words -/

/-- The signed words of `w + 1` bits. -/
def InWord (w : Nat) (x : ℤ) : Prop := -2 ^ w ≤ x ∧ x < 2 ^ w

/-- The balanced remainder is congruent to the number. -/
theorem bmod_modEq (x : ℤ) (n : Nat) : x.bmod n ≡ x [ZMOD n] := Int.bmod_emod

/-- A number that has room is its own word. -/
theorem bmod_eq_self {w : Nat} {x : ℤ} (h : InWord w x) : x.bmod (2 ^ (w + 1)) = x := by
  obtain ⟨hlow, hhigh⟩ := h
  have hhalf : ((2 ^ (w + 1) : Nat) : ℤ) = 2 * 2 ^ w := by
    push_cast
    ring
  refine Int.bmod_eq_of_le ?_ ?_
  · omega
  · omega

end Nucleus.Lib
