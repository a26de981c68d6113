import Mathlib.Logic.Function.Basic

/-!
# `Nucleus.Lib.Footprint`: bytes and the addresses that are written

A `Memory` is the bytes at all addresses with the record of the addresses that were written to. So
it can tell a store that leaves a byte as it was from no store. `fill` and `copy` are the loops that
write one byte after the other: their content and their footprint are those of a range
(`fill_bytes`, `fill_footprint`, `copy_bytes`, `copy_footprint`).
-/

set_option autoImplicit false

namespace Nucleus.Lib

/-- Bytes by their addresses, and the addresses written to. -/
structure Memory where
  bytes : Nat → UInt8
  footprint : Nat → Bool

namespace Memory

/-- A memory that has not been written to. -/
def fresh (bytes : Nat → UInt8) : Memory := ⟨bytes, fun _ => false⟩

/-- Write one byte. -/
def store (m : Memory) (a : Nat) (b : UInt8) : Memory :=
  ⟨Function.update m.bytes a b, Function.update m.footprint a true⟩

/-- Write the byte `b` to `n` addresses from `a` on. -/
def fill (m : Memory) (a : Nat) (b : UInt8) : Nat → Memory
  | 0 => m
  | n + 1 => (m.store a b).fill (a + 1) b n

/-- Write the bytes `f 0` to `f (n - 1)` to the addresses from 0 on. -/
def copy (m : Memory) (f : Nat → UInt8) : Nat → Memory
  | 0 => m
  | n + 1 => (m.copy f n).store n (f n)

section
variable (m : Memory) (b : UInt8) (f : Nat → UInt8)

/-- A store writes its byte and no other. -/
theorem store_bytes (a i : Nat) : (m.store a b).bytes i = if i = a then b else m.bytes i :=
  Function.update_apply m.bytes a b i

/-- The footprint of a store is its address. -/
theorem store_footprint (a i : Nat) :
    (m.store a b).footprint i = (decide (i = a) || m.footprint i) := by
  show Function.update m.footprint a true i = _
  rw [Function.update_apply]
  by_cases h : i = a
  · simp [h]
  · simp [h]

/-- A filled range holds the byte, and the rest is as it was. -/
theorem fill_bytes (n : Nat) : ∀ (m : Memory) (a i : Nat),
    (m.fill a b n).bytes i = if a ≤ i ∧ i < a + n then b else m.bytes i := by
  induction n with
  | zero =>
      intro m a i
      rw [fill, if_neg (by omega)]
  | succ n ih =>
      intro m a i
      rw [fill, ih, store_bytes]
      by_cases hrest : a + 1 ≤ i ∧ i < a + 1 + n
      · rw [if_pos hrest, if_pos (by omega)]
      · rw [if_neg hrest]
        by_cases hi : i = a
        · rw [if_pos hi, if_pos (by omega)]
        · rw [if_neg hi, if_neg (by omega)]

/-- The footprint of a fill is the range that it writes. The induction is on the length, from the
front. -/
theorem fill_footprint (n : Nat) : ∀ (m : Memory) (a i : Nat),
    (m.fill a b n).footprint i = (decide (a ≤ i ∧ i < a + n) || m.footprint i) := by
  induction n with
  | zero =>
      intro m a i
      have hnone : ¬ (a ≤ i ∧ i < a + 0) := by omega
      rw [fill, decide_eq_false hnone, Bool.false_or]
  | succ n ih =>
      intro m a i
      have hrange : (a ≤ i ∧ i < a + (n + 1)) ↔ (a + 1 ≤ i ∧ i < a + 1 + n) ∨ i = a := by omega
      rw [fill, ih, store_footprint, ← Bool.or_assoc, ← Bool.decide_or]
      simp only [hrange]

/-- A copy writes the first `n` bytes and no others. -/
theorem copy_bytes (n i : Nat) : (m.copy f n).bytes i = if i < n then f i else m.bytes i := by
  induction n with
  | zero => rfl
  | succ n ih =>
      rw [copy, store_bytes, ih]
      by_cases hi : i = n
      · rw [if_pos hi, if_pos (by omega), hi]
      · rw [if_neg hi]
        by_cases hlt : i < n
        · rw [if_pos hlt, if_pos (by omega)]
        · rw [if_neg hlt, if_neg (by omega)]

/-- The footprint of a copy is the first `n` bytes. -/
theorem copy_footprint (n i : Nat) :
    (m.copy f n).footprint i = (decide (i < n) || m.footprint i) := by
  induction n with
  | zero => simp [copy]
  | succ n ih =>
      have hrange : i < n + 1 ↔ i = n ∨ i < n := by omega
      rw [copy, store_footprint, ih, ← Bool.or_assoc, ← Bool.decide_or]
      simp only [hrange]

end

end Memory

end Nucleus.Lib
