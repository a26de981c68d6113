import Mathlib.Algebra.Order.BigOperators.Group.Finset
import Nucleus.Proofs.ListMemory
import Nucleus.Proofs.Lookup

/-!
# `Nucleus.Proofs.Layout`: the bytes of a chunk

A chunk holds the columns of an archetype, one row for each entity, and behind them the array
of entities and the array of indices. The size of a row is the sum of the sizes of the fields,
but `nu__field_type_size` gives four bytes to every type that it does not name.
`layoutFits_iff` says which field lists get a layout that fits.
-/

set_option autoImplicit false

namespace Nucleus.Proofs

open Nucleus.Vm
open Nucleus.Spec

/-! ### The specification -/

/-- The size of a value of a primitive: four bytes for each component of a vector or a matrix,
`sizeof(nu__entity_ref_t)` for entities. A primitive without values counts as four bytes. -/
def valueSize : Primitive → Nat
  | .ivec2 | .vec2 => 2 * 4
  | .ivec3 | .vec3 => 3 * 4
  | .ivec4 | .vec4 | .quat => 4 * 4
  | .mat4 => 16 * 4
  | .entity => 8
  | .bool | .int | .fix | .resource | .unknown => 4

/-- The bytes that the values of one row need. -/
def valueBytes (c : CreateCall) : Nat :=
  ((List.range c.fieldCount.toNat).map fun i => valueSize (c.fields i).primitive).sum

/-- In the chunk `chunk` the columns, the array of entities and the array of indices have
room for rows of `rowBytes` bytes and do not overlap. -/
structure LayoutFits (entry : ArchetypeEntry) (rowBytes : Nat) (chunk : UInt16) : Prop where
  row : rowBytes ≤ entry.entrySize.toNat
  capacity : 1 ≤ entry.capacity.toNat
  columns_entities : Apart (chunk.toNat * chunkSize) (rowBytes * entry.capacity.toNat)
    (chunkEntities entry chunk) (4 * entry.capacity.toNat)
  columns_indices : Apart (chunk.toNat * chunkSize) (rowBytes * entry.capacity.toNat)
    (chunkIndices entry chunk) (2 * entry.capacity.toNat)
  entities_indices : Apart (chunkEntities entry chunk) (4 * entry.capacity.toNat)
    (chunkIndices entry chunk) (2 * entry.capacity.toNat)
  columns_end : chunk.toNat * chunkSize + rowBytes * entry.capacity.toNat ≤
    (chunk.toNat + 1) * chunkSize
  entities_end : chunkEntities entry chunk + 4 * entry.capacity.toNat ≤
    (chunk.toNat + 1) * chunkSize
  indices_end : chunkIndices entry chunk + 2 * entry.capacity.toNat ≤
    (chunk.toNat + 1) * chunkSize

/-! ### The size of a row -/

/-- The sum of the sizes that `nu__field_type_size` gives to the fields, before it is cut to 16
bits. -/
def tableBytes (c : CreateCall) : Nat :=
  ((List.range c.fieldCount.toNat).map fun i => fieldTypeSize (c.fields i).primitive).sum

/-- A sum over a list of indices. -/
theorem sum_map_range (f : Nat → Nat) (n : Nat) :
    ((List.range n).map f).sum = ∑ i ∈ Finset.range n, f i := by
  induction n with
  | zero => rfl
  | succ n ih => simp [List.range_succ, Finset.sum_range_succ, ih]

/-- The primitives that are given less room than they need. -/
def undersized : List Primitive := [.ivec2, .ivec3, .ivec4, .vec2, .vec4, .mat4]

/-- No field is given more bytes than its values have. -/
theorem fieldTypeSize_le (p : Primitive) : fieldTypeSize p ≤ valueSize p := by
  cases p <;> decide

/-- Some primitives are given fewer bytes than their values have. -/
theorem fieldTypeSize_eq_iff (p : Primitive) : fieldTypeSize p = valueSize p ↔ p ∉ undersized := by
  cases p <;> decide

/-- A row has no more bytes than its values. -/
theorem tableBytes_le (c : CreateCall) : tableBytes c ≤ valueBytes c := by
  unfold tableBytes valueBytes
  rw [sum_map_range, sum_map_range]
  exact Finset.sum_le_sum fun i _ => fieldTypeSize_le _

/-- A row gets the room it needs exactly when each of its fields does. -/
theorem tableBytes_eq_iff (c : CreateCall) :
    tableBytes c = valueBytes c ↔
      ∀ i < c.fieldCount.toNat, (c.fields i).primitive ∉ undersized := by
  unfold tableBytes valueBytes
  rw [sum_map_range, sum_map_range,
    Finset.sum_eq_sum_iff_of_le fun i _ => fieldTypeSize_le (c.fields i).primitive]
  simp only [Finset.mem_range, fieldTypeSize_eq_iff]

/-- The size of a row is stored in 16 bits. -/
theorem toNat_archetypeEntrySize (c : CreateCall) :
    (archetypeEntrySize c.fields c.fieldCount).toNat = tableBytes c % 65536 :=
  UInt16.toNat_ofNat' ..

/-- The row capacity, as the division of the chunk. -/
theorem toNat_tableEntryCapacity (c : CreateCall) :
    (tableEntryCapacity c.fields c.fieldCount).toNat =
      chunkSize / (tableBytes c % 65536 + 6) := by
  have hle : chunkSize / (tableBytes c % 65536 + 6) ≤ 4096 := Nat.div_le_self _ _
  rw [tableEntryCapacity, UInt16.toNat_ofNat', toNat_archetypeEntrySize, Nat.add_assoc,
    Nat.mod_eq_of_lt (Nat.lt_of_le_of_lt hle (by decide))]

/-- The sizes in the entry that a creation stores. -/
theorem entry_of_created {m m' : TableManager} {c : CreateCall} {handle : UInt16}
    (h : vmCreateArchetype m c.name c.fields c.fieldCount = (none, handle, m')) :
    (entryOf m' handle).entrySize = archetypeEntrySize c.fields c.fieldCount ∧
      (entryOf m' handle).capacity = tableEntryCapacity c.fields c.fieldCount := by
  unfold vmCreateArchetype archetypeCreate at h
  by_cases hfull : m.archetypeCount.toNat + 1 > m.archetypeCapacity.toNat ∨
      m.fieldCount.toNat + c.fieldCount.toNat > m.fieldCapacity.toNat
  · simp only [hfull, if_true] at h
    cases h
  · simp only [hfull, if_false] at h
    have hcount := (foldl_insertField c.fields (List.range c.fieldCount.toNat) m).2.2.2.1
    have hroom := Nat.not_lt.mp (not_or.mp hfull).1
    cases h
    have hindex : (m.archetypeCount + 1).toNat - 1 = m.archetypeCount.toNat := by
      rw [toNat_succ hroom, Nat.add_sub_cancel]
    simp only [entryOf, hindex, hcount, if_true, and_self]

/-! ### The layout of a chunk -/

/-- The arrays of a chunk fit exactly when every field gets the room that it needs and a row
with its entity and its index is not larger than a chunk. -/
theorem layoutFits_iff {m m' : TableManager} {c : CreateCall} {handle : UInt16}
    (h : vmCreateArchetype m c.name c.fields c.fieldCount = (none, handle, m')) :
    (∀ chunk, LayoutFits (entryOf m' handle) (valueBytes c) chunk) ↔
      (∀ i < c.fieldCount.toNat, (c.fields i).primitive ∉ undersized) ∧
        valueBytes c + 6 ≤ chunkSize := by
  obtain ⟨hsize, hcapacity⟩ := entry_of_created h
  have hle := tableBytes_le c
  have hmod : tableBytes c % 65536 ≤ tableBytes c := Nat.mod_le _ _
  rw [← tableBytes_eq_iff]
  constructor
  · intro hfits
    have hrow := (hfits 0).row
    have hcap := (hfits 0).capacity
    rw [hsize, toNat_archetypeEntrySize] at hrow
    rw [hcapacity, toNat_tableEntryCapacity, Nat.one_le_div_iff (by omega)] at hcap
    exact ⟨by omega, by omega⟩
  · rintro ⟨heq, hfit⟩ chunk
    have hbytes : tableBytes c % 65536 = valueBytes c := by
      rw [heq]
      exact Nat.mod_eq_of_lt (Nat.lt_of_le_of_lt (Nat.le_of_add_right_le hfit) (by decide))
    have hentry : (entryOf m' handle).entrySize.toNat = valueBytes c := by
      rw [hsize, toNat_archetypeEntrySize, hbytes]
    have hcap : (entryOf m' handle).capacity.toNat = chunkSize / (valueBytes c + 6) := by
      rw [hcapacity, toNat_tableEntryCapacity, hbytes]
    have hall : (valueBytes c + 6) * (entryOf m' handle).capacity.toNat ≤ chunkSize := by
      rw [hcap]
      exact Nat.mul_div_le _ _
    have hone : 1 ≤ (entryOf m' handle).capacity.toNat := by
      rw [hcap, Nat.one_le_div_iff (by omega)]
      exact hfit
    have hentities : chunkEntities (entryOf m' handle) chunk = chunk.toNat * chunkSize +
        valueBytes c * (entryOf m' handle).capacity.toNat := by
      rw [chunkEntities, hentry]
    have hindices : chunkIndices (entryOf m' handle) chunk = chunk.toNat * chunkSize +
        (valueBytes c * (entryOf m' handle).capacity.toNat +
          4 * (entryOf m' handle).capacity.toNat) := by
      rw [chunkIndices, hentry, Nat.add_mul]
    have hrow := Nat.le_of_eq hentry.symm
    rw [Nat.add_mul] at hall
    clear hcap hentry
    -- the three arrays follow each other, and their sizes add up to `hall`
    constructor
    case row => exact hrow
    case capacity => exact hone
    case columns_entities => exact Or.inl (by rw [hentities])
    case columns_indices =>
      exact Or.inl (by rw [hindices]; exact Nat.add_le_add_left (Nat.le_add_right _ _) _)
    case entities_indices => exact Or.inl (by rw [hentities, hindices, Nat.add_assoc])
    case columns_end => rw [Nat.add_mul]; omega
    case entities_end => rw [hentities, Nat.add_mul]; omega
    case indices_end => rw [hindices, Nat.add_mul]; omega

/-- An archetype with one matrix. -/
def placed : CreateCall := ⟨"placed".toList, fun _ => ⟨"pose".toList, .mat4, 0⟩, 1⟩

/-- A matrix is given four of its 64 bytes. -/
theorem not_layoutFits_placed :
    ∃ m, vmCreateArchetype (tableManagerInit 1 1 1 filledMemory) placed.name placed.fields
        placed.fieldCount = (none, 1, m) ∧
      (entryOf m 1).entrySize = 4 ∧ valueBytes placed = 64 ∧
      ¬ ∀ chunk, LayoutFits (entryOf m 1) (valueBytes placed) chunk :=
  ⟨_, rfl, by decide, by decide, fun h => absurd (h 0).row (by decide)⟩

/-- The rows of `player` fit. -/
theorem layoutFits_player :
    ∃ m, vmCreateArchetype (tableManagerInit 2 4 1 filledMemory) player.name player.fields
        player.fieldCount = (none, 1, m) ∧
      ∀ chunk, LayoutFits (entryOf m 1) (valueBytes player) chunk := by
  have hcall : vmCreateArchetype (tableManagerInit 2 4 1 filledMemory) player.name player.fields
      player.fieldCount = (none, 1, _) := rfl
  exact ⟨_, hcall, (layoutFits_iff hcall).mpr (by decide)⟩

end Nucleus.Proofs
