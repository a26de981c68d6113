import Nucleus.Spec.Fixed

/-!
# `Nucleus.Proofs.Logarithm`: powers of two

The loop of `nu_log2` counts the halvings that leave something, so it is the binary logarithm
(`toNat_log2`). The test of `nu_is_power_of_two` takes a bit from `n` with `n - 1`, which leaves
nothing of a power of two, and nothing of zero either (`isPowerOfTwo_iff`).
-/

set_option autoImplicit false

namespace Nucleus.Proofs

open Nucleus.Vm
open Nucleus.Spec

/-- One halving for each turn of the loop. -/
theorem toNat_log2Loop (n result : UInt64) (hroom : result.toNat + n.toNat.log2 < 2 ^ 64) :
    (log2Loop result (n >>> 1)).toNat = result.toNat + n.toNat.log2 := by
  induction hn : n.toNat using Nat.strong_induction_on generalizing n result with
  | _ k ih =>
      subst hn
      have hhalf := toNat_halve n
      rw [log2Loop]
      by_cases hne : n >>> 1 ≠ 0
      · have hpos : (n >>> 1).toNat ≠ 0 := fun h => hne (UInt64.toNat_inj.mp h)
        -- a shift by one takes one from the logarithm
        have hlog : n.toNat.log2 = (n >>> 1).toNat.log2 + 1 := by
          rw [hhalf, Nat.log2_def n.toNat, if_pos (by omega)]
        have hnext : (result + 1).toNat = result.toNat + 1 := by
          rw [UInt64.toNat_add]
          show (result.toNat + 1) % 2 ^ 64 = _
          exact Nat.mod_eq_of_lt (by omega)
        rw [if_pos hne, ih (n >>> 1).toNat (by omega) (n >>> 1) (result + 1) (by omega) rfl, hnext,
          hlog]
        omega
      · have hzero : (n >>> 1).toNat = 0 := by
          rw [not_not.mp hne]
          rfl
        rw [if_neg hne, Nat.log2_def, if_neg (by omega), Nat.add_zero]

/-- `nu_log2` is the binary logarithm, and 0 at 0. -/
theorem toNat_log2 (n : UInt64) : (log2 n).toNat = n.toNat.log2 := by
  have hroom : n.toNat.log2 < 2 ^ 64 :=
    Nat.lt_of_le_of_lt (Nat.log2_le_self _) n.toNat_lt
  have hrun := toNat_log2Loop n 0 (by simpa using hroom)
  simpa [log2] using hrun

/-- The test with the bits accepts the powers of two and 0. -/
theorem isPowerOfTwo_iff (n : UInt64) :
    isPowerOfTwo n = true ↔ n.toNat = 0 ∨ n.toNat.isPowerOfTwo := by
  have hword : isPowerOfTwo n = true ↔ (n &&& (n - 1)).toNat = 0 := by
    rw [isPowerOfTwo, beq_iff_eq, ← UInt64.toNat_inj]
    rfl
  rw [hword, UInt64.toNat_and]
  by_cases hzero : n.toNat = 0
  · rw [hzero, Nat.zero_and]
    exact iff_of_true rfl (Or.inl rfl)
  · -- `n - 1` wraps around only for zero
    have hle : (1 : UInt64).toNat ≤ n.toNat := Nat.pos_of_ne_zero hzero
    rw [UInt64.toNat_sub_of_le _ _ hle, or_iff_right hzero]
    exact Nat.and_sub_one_eq_zero_iff_isPowerOfTwo hzero

/-- The test and the logarithm agree but for zero, which the test takes for a power of two. -/
theorem powersOfTwo_iff (n : UInt64) : PowersOfTwo n ↔ n ≠ 0 := by
  constructor
  · rintro h rfl
    obtain ⟨k, -, hk⟩ := h.power.mp (by decide)
    exact Nat.ne_of_gt (Nat.two_pow_pos k) hk.symm
  · intro hne
    have hzero : n.toNat ≠ 0 := fun h => hne (UInt64.toNat_inj.mp h)
    refine ⟨?_, fun k hk hpower => ?_, fun _ => ?_⟩
    · rw [isPowerOfTwo_iff, or_iff_right hzero]
      constructor
      · rintro ⟨k, hk⟩
        have hlt : 2 ^ k < 2 ^ 64 := hk ▸ n.toNat_lt
        exact ⟨k, (Nat.pow_lt_pow_iff_right (by decide)).mp hlt, hk⟩
      · rintro ⟨k, -, hk⟩
        exact ⟨k, hk⟩
    · rw [toNat_log2, hpower, Nat.log2_two_pow]
    · rw [toNat_log2]
      exact ⟨Nat.log2_self_le hzero, Nat.lt_log2_self⟩

/-- Zero is no power of two. -/
theorem not_powersOfTwo_zero : isPowerOfTwo 0 = true ∧ ¬ PowersOfTwo 0 := by
  refine ⟨by decide, fun h => ?_⟩
  obtain ⟨k, -, hk⟩ := h.power.mp (by decide)
  exact Nat.ne_of_gt (Nat.two_pow_pos k) hk.symm

end Nucleus.Proofs
