import Nucleus.Proofs.Slotmap

/-!
# `Nucleus.Proofs.Exhaustion`: the guard of `nu__slotmap_add`

`nu__slotmap_add` asserts that the head of the free chain is at most the capacity. The chain ends at
the slot behind the last one, so the assertion fails when all slots are handed out, unless that slot
is `0x10000`, which a link of 16 bits stores as 0 (`catches_iff`). In a `GuardedRun` the calls of
`nu__slotmap_add` are those that the assertion lets through.
-/

set_option autoImplicit false

namespace Nucleus.Proofs

open Nucleus.Lib
open Nucleus.Vm

/-! ### Guarded runs -/

/-- A run from `nu__slotmap_init`, whose assertions hold: `add` where the assertion holds, `remove`
of a live slot or of none, and writes to live objects. -/
inductive GuardedRun (memory : Nat → UInt8) (objSize : Nat) (capacity : UInt16) :
    List SlotEvent → Slotmap → Prop where
  | init : slotSize ≤ objSize → 0 < capacity →
      GuardedRun memory objSize capacity [] (slotmapInit memory objSize capacity)
  | add {es : List SlotEvent} {s : Slotmap} :
      GuardedRun memory objSize capacity es s → slotmapAddGuard s →
      GuardedRun memory objSize capacity
        (es ++ [.add (slotmapAdd s).1 (objectOf (slotmapAdd s).2 (slotmapAdd s).1)])
        (slotmapAdd s).2
  | remove {es : List SlotEvent} {s : Slotmap} {slot : Slot} :
      GuardedRun memory objSize capacity es s → (slot ∈ liveSlots es ∨ slot = slotNull) →
      GuardedRun memory objSize capacity (es ++ [.remove slot]) (slotmapRemove s slot)
  | write {es : List SlotEvent} {s : Slotmap} {slot : Slot} {o : Nat} (content : Nat → UInt8) :
      GuardedRun memory objSize capacity es s → slot ∈ liveSlots es →
      slotmapGet s slot = some o →
      GuardedRun memory objSize capacity (es ++ [.write slot content]) (writeObject s o content)

/-- The assertion fails exactly when all slots are live, and where it holds the head of the chain is
a free slot. -/
structure Catches (capacity : UInt16) (es : List SlotEvent) (s : Slotmap) : Prop where
  fails_iff : ¬ slotmapAddGuard s ↔ (liveSlots es).length = capacity.toNat
  free_slot : slotmapAddGuard s → s.free ≠ slotNull ∧ s.free ≤ capacity ∧ s.free ∉ liveSlots es

/-- The sentinel of the chain is not what its head is: the map is smaller than the largest one, or a
slot is free. -/
def HasSentinel (capacity : UInt16) (es : List SlotEvent) : Prop :=
  ¬ (capacity = 0xffff ∧ (liveSlots es).length = 0xffff)

/-- No slot was added while there was none in a map of the largest capacity. -/
def AddsChecked (capacity : UInt16) (es : List SlotEvent) : Prop :=
  ∀ (pre post : List SlotEvent) (slot : Slot) (content : Nat → UInt8),
    es = pre ++ .add slot content :: post → HasSentinel capacity pre

/-! ### One call -/

section
variable {memory : Nat → UInt8} {objSize : Nat} {capacity : UInt16} {es : List SlotEvent}
  {s : Slotmap}

/-- No call changes the capacity. -/
theorem SlotRun.capacity_eq (h : SlotRun memory objSize capacity es s) : s.capacity = capacity := by
  induction h with
  | init => rfl
  | add _ _ ih => exact ih
  | @remove es s slot _ _ ih =>
      rw [slotmapRemove]
      split
      · exact ih
      · exact ih
  | write _ _ _ _ ih => exact ih

/-- Every slot of the map is live or free. -/
theorem length_live_add_free (hsize : slotSize ≤ objSize)
    (h : SlotRun memory objSize capacity es s) :
    (liveSlots es).length + (freedSlots es ++ unusedSlots capacity es).length =
      capacity.toNat := by
  have hlength := (slotRun_inv hsize h).slots.length_eq
  rwa [List.length_append, length_slotsOf] at hlength

/-- With all slots live the head of the chain is its end. -/
theorem free_eq_end (hsize : slotSize ≤ objSize) (h : SlotRun memory objSize capacity es s)
    (hfull : (liveSlots es).length = capacity.toNat) : s.free = capacity + 1 := by
  have hlength := length_live_add_free hsize h
  have hnil : freedSlots es ++ unusedSlots capacity es = [] :=
    List.eq_nil_of_length_eq_zero (by omega)
  -- the chain of no slots begins with its end
  have hchain := (slotRun_inv hsize h).chain
  rw [hnil] at hchain
  exact hchain

/-! ### Runs -/

end

end Nucleus.Proofs
