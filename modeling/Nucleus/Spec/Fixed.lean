import Mathlib.Data.Rat.Floor
import Nucleus.Lib.FixedPoint
import Nucleus.Vm.Fixed

/-!
# `Nucleus.Spec.Fixed`: the laws of the arithmetic

`FloorProduct` says that `nu_fmul` is the product of two fixed-point numbers, rounded down, and
`RoundTrip` that it undoes `nu_fdiv` up to an error toward zero. `PowersOfTwo` relates
`nu_is_power_of_two` and `nu_log2`.
-/

set_option autoImplicit false

namespace Nucleus.Spec

open Nucleus.Lib
open Nucleus.Vm

/-- The product with 16 binary places, rounded down. -/
def floorProduct (a b : Int32) : ℤ := ⌊(a.toInt * b.toInt : ℚ) / 2 ^ 16⌋

/-- `nu_fmul` is the product, rounded down. -/
structure FloorProduct (a b : Int32) : Prop where
  congruent : (fmul a b).toInt ≡ floorProduct a b [ZMOD 2 ^ 32]
  exact : InWord 31 (floorProduct a b) → (fmul a b).toInt = floorProduct a b
  comm : fmul a b = fmul b a
  mono_left : ∀ a' : Int32, 0 ≤ b → a ≤ a' →
    InWord 31 (floorProduct a b) → InWord 31 (floorProduct a' b) → fmul a b ≤ fmul a' b
  mono_right : ∀ b' : Int32, 0 ≤ a → b ≤ b' →
    InWord 31 (floorProduct a b) → InWord 31 (floorProduct a b') → fmul a b ≤ fmul a b'

/-- The quotient with 16 binary places, rounded toward zero. -/
def truncQuotient (a b : Int32) : ℤ := (a.toInt * 2 ^ 16).tdiv b.toInt

/-- `nu_fmul` undoes `nu_fdiv` up to an error toward zero, and the words of 64 bits on the way hold
the numbers that they stand for. The product is unsigned: read as a signed word it is the product of
the two numbers. -/
structure RoundTrip (a b : Int32) : Prop where
  of_nonneg : 0 ≤ a.toInt → a.toInt - (|b.toInt| / 2 ^ 16 + 1) ≤ (fmul (fdiv a b) b).toInt ∧
    (fmul (fdiv a b) b).toInt ≤ a.toInt
  of_neg : a.toInt < 0 → a.toInt ≤ (fmul (fdiv a b) b).toInt ∧
    (fmul (fdiv a b) b).toInt ≤ a.toInt + |b.toInt| / 2 ^ 16
  dividend : (fdivDividend a).toInt = a.toInt * 2 ^ 16
  quotient : (fdivDividend a / b.toInt64).toInt = truncQuotient a b
  product : (fmulProduct (fdiv a b) b).toInt64.toInt = truncQuotient a b * b.toInt

/-- `nu_is_power_of_two` tells the powers of two, `nu_log2` gives their exponents, and a number that
is not zero lies between two powers. -/
structure PowersOfTwo (n : UInt64) : Prop where
  power : isPowerOfTwo n = true ↔ ∃ k < 64, n.toNat = 2 ^ k
  exponent : ∀ k < 64, n.toNat = 2 ^ k → (log2 n).toNat = k
  between : 1 ≤ n.toNat → 2 ^ (log2 n).toNat ≤ n.toNat ∧ n.toNat < 2 ^ ((log2 n).toNat + 1)

end Nucleus.Spec
