import Nucleus.Proofs.Layout

/-!
# `Nucleus.Proofs.Columns`: the bytes of a component

`nu__archetype_field` reads an offset, a capacity and a size out of the index of a field, ten
bits each. But the index that `nu__archetype_find_field` returns is a position in the pool of
fields: below 65536, so that the size it decodes is always 0 and the row of an entity never
counts.

`columnAt` is the place in a chunk that a position decodes to. `disjointStorage_iff` says for
which archetypes the components get bytes of their own nevertheless.
-/

set_option autoImplicit false

namespace Nucleus.Proofs

open Nucleus.Vm
open Nucleus.Spec

/-! ### The specification -/

/-- `e` is an entity with a row of the archetype `handle`. -/
structure IsEntityOf (m : TableManager) (handle : UInt16) (e : UInt32) : Prop where
  chunk : (entityChunk e).toNat < m.chunkCapacity.toNat
  index : (entityIndex e).toNat < (entryOf m handle).capacity.toNat

/-- The address of the field `j` of the entity `e`, by the name of the field. -/
def componentAt (m : TableManager) (handle : UInt16) (c : CreateCall) (e : UInt32) (j : Nat) :
    Option Nat :=
  (archetypeFindField m handle (uid (c.fields j).name)).map (archetypeField e)

/-- The size of the field `j`. -/
def componentSize (c : CreateCall) (j : Nat) : Nat := fieldTypeSize (c.fields j).primitive

/-- Every component has bytes of its own: those of a field of an entity lie among the rows of
its chunk, and two fields, or one field of two entities, share none. -/
structure DisjointStorage (m : TableManager) (handle : UInt16) (c : CreateCall) : Prop where
  inside : ∀ e, IsEntityOf m handle e → ∀ j < c.fieldCount.toNat, ∃ a,
    componentAt m handle c e j = some a ∧ (entityChunk e).toNat * chunkSize ≤ a ∧
    a + componentSize c j ≤ (entityChunk e).toNat * chunkSize +
      (entryOf m handle).entrySize.toNat * (entryOf m handle).capacity.toNat
  apart : ∀ e e', IsEntityOf m handle e → IsEntityOf m handle e' →
    ∀ i < c.fieldCount.toNat, ∀ j < c.fieldCount.toNat, i ≠ j ∨ e ≠ e' → ∀ a b,
      componentAt m handle c e i = some a → componentAt m handle c e' j = some b →
      Apart a (componentSize c i) b (componentSize c j)

/-- The fields of `c`, whose range in the pool starts at `offset`, are decoded to columns of
their own: the range starts with the second group of positions, a chunk holds one row, all
fields but the one at the last position are quaternions, and the hashes of the names are
different and are the hashes of the stored names. -/
structure PackedQuats (offset : Nat) (c : CreateCall) : Prop where
  offset_eq : offset = 1025
  bytes : 2042 < tableBytes c ∧ tableBytes c ≤ 4090
  quats : ∀ j < c.fieldCount.toNat,
    uid (c.fields j).name ≠ storedUid (c.fields (c.fieldCount.toNat - 1)).name →
      (c.fields j).primitive = .quat
  names : ∀ i < c.fieldCount.toNat, ∀ j < c.fieldCount.toNat,
    uid (c.fields i).name = uid (c.fields j).name → i = j
  stored : ∀ j < c.fieldCount.toNat, ∃ i < c.fieldCount.toNat,
    storedUid (c.fields i).name = uid (c.fields j).name

/-! ### Decoding -/

/-- The mask of ten bits is a remainder. -/
theorem toNat_and_mask (x : UInt32) : (x &&& 0x3ff).toNat = x.toNat % 1024 :=
  (UInt32.toNat_and x 0x3ff).trans (Nat.and_two_pow_sub_one_eq_mod x.toNat 10)

/-- Ten bits of a handle, scaled by four. -/
theorem toNat_tenBits (x : UInt32) : ((x &&& 0x3ff) <<< 2).toUInt16.toNat = x.toNat % 1024 * 4 := by
  have hlt : x.toNat % 1024 < 1024 := Nat.mod_lt _ (by decide)
  rw [UInt32.toNat_toUInt16, UInt32.toNat_shiftLeft, toNat_and_mask]
  show (x.toNat % 1024) <<< 2 % 4294967296 % 65536 = _
  rw [Nat.shiftLeft_eq, Nat.mod_eq_of_lt (by omega), Nat.mod_eq_of_lt (by omega)]

/-- The offset of a field is in its lowest ten bits. -/
theorem toNat_fieldOffset (f : UInt32) : (fieldOffset f).toNat = (f - 1).toNat % 1024 * 4 :=
  toNat_tenBits _

/-- The capacity of a field is in its middle ten bits. -/
theorem toNat_fieldCapacity (f : UInt32) :
    (fieldCapacity f).toNat = (f - 1).toNat / 1024 % 1024 * 4 := by
  rw [fieldCapacity, toNat_tenBits, UInt32.toNat_shiftRight]
  show (f - 1).toNat >>> 10 % 1024 * 4 = _
  rw [Nat.shiftRight_eq_div_pow]

/-- The size of a field is in its highest ten bits. -/
theorem toNat_fieldSize (f : UInt32) :
    (fieldSize f).toNat = (f - 1).toNat / 1048576 % 1024 * 4 := by
  rw [fieldSize, toNat_tenBits, UInt32.toNat_shiftRight]
  show (f - 1).toNat >>> 20 % 1024 * 4 = _
  rw [Nat.shiftRight_eq_div_pow]

/-- The index of an entity is in its lowest 16 bits. -/
theorem toNat_entityIndex (e : UInt32) : (entityIndex e).toNat = (e - 1).toNat % 65536 := by
  rw [entityIndex, UInt32.toNat_toUInt16, UInt32.toNat_and]
  exact (congrArg (· % 65536) (Nat.and_two_pow_sub_one_eq_mod (e - 1).toNat 16)).trans
    (Nat.mod_mod _ _)

/-- The chunk of an entity is in its highest 16 bits. -/
theorem toNat_entityChunk (e : UInt32) : (entityChunk e).toNat = (e - 1).toNat / 65536 := by
  have hlt : (e - 1).toNat < 4294967296 := (e - 1).toNat_lt
  rw [entityChunk, UInt32.toNat_toUInt16, UInt32.toNat_shiftRight]
  show (e - 1).toNat >>> 16 % 65536 = _
  rw [Nat.shiftRight_eq_div_pow, Nat.mod_eq_of_lt (by omega)]

/-- An entity is its chunk and its index. -/
theorem entity_ext {e e' : UInt32} (hchunk : (entityChunk e).toNat = (entityChunk e').toNat)
    (hindex : (entityIndex e).toNat = (entityIndex e').toNat) : e = e' := by
  rw [toNat_entityChunk, toNat_entityChunk] at hchunk
  rw [toNat_entityIndex, toNat_entityIndex] at hindex
  have hpred : e - 1 = e' - 1 := UInt32.toNat_inj.mp (by omega)
  rw [← UInt32.sub_add_cancel e 1, hpred, UInt32.sub_add_cancel]

/-- The place in a chunk that the position `q + 1` of the pool decodes to. -/
def columnAt (q : Nat) : Nat := 16 * (q / 1024) * (q % 1024)

/-- The index 0 decodes to a place far behind the chunk. -/
theorem archetypeField_zero (e : UInt32) :
    (entityChunk e).toNat * chunkSize + 4092 * 4092 ≤ archetypeField e 0 :=
  Nat.le_add_right _ _

/-- The position of a field decodes to the same place in the chunk for every row. -/
theorem archetypeField_ofNat (e : UInt32) {q : Nat} (hq : q + 1 < 65536) :
    archetypeField e (UInt32.ofNat (q + 1)) =
      (entityChunk e).toNat * chunkSize + columnAt q := by
  have hpred : (UInt32.ofNat (q + 1) - 1).toNat = q := by
    rw [UInt32.toNat_sub_of_le]
    · rw [UInt32.toNat_ofNat_of_lt' (show q + 1 < 4294967296 by omega)]
      rfl
    · rw [UInt32.le_iff_toNat_le, UInt32.toNat_ofNat_of_lt' (show q + 1 < 4294967296 by omega)]
      exact Nat.le_add_left 1 q
  rw [archetypeField, toNat_fieldCapacity, toNat_fieldOffset, toNat_fieldSize, hpred,
    Nat.mod_eq_of_lt (show q / 1024 < 1024 by omega), Nat.div_eq_of_lt (show q < 1048576 by omega)]
  simp only [Nat.zero_mod, Nat.zero_mul, Nat.mul_zero, Nat.add_zero, columnAt]
  rw [Nat.mul_mul_mul_comm, Nat.mul_comm (q / 1024 * _), ← Nat.mul_assoc]

/-! ### Packed columns -/

/-- Up to the position 1024 of the pool every column is at the start of the chunk. -/
theorem columnAt_of_le {q : Nat} (h : q ≤ 1024) : columnAt q = 0 := by
  rcases Nat.lt_or_eq_of_le h with hlt | rfl
  · rw [columnAt, Nat.div_eq_of_lt hlt, Nat.mul_zero, Nat.zero_mul]
  · rfl

/-- Inside one group of 1024 positions the columns are equally far from each other. -/
theorem columnAt_add {b i : Nat} (h : b % 1024 + i < 1024) :
    columnAt (b + i) = 16 * (b / 1024) * (b % 1024 + i) := by
  have hdiv : (b + i) / 1024 = b / 1024 := by omega
  have hmod : (b + i) % 1024 = b % 1024 + i := by omega
  rw [columnAt, hdiv, hmod]

/-- Sizes of at most 16 add up to at most what they would be if all but the last one were
16. -/
theorem sum_sizes_le {size : Nat → Nat} {n l : Nat} (hl : l < n) (hsize : ∀ j, size j ≤ 16) :
    ∑ j ∈ Finset.range n, size j ≤ 16 * (n - 1) + size l ∧
      (∑ j ∈ Finset.range n, size j = 16 * (n - 1) + size l ↔
        ∀ j < n, j ≠ l → size j = 16) := by
  have hmem : l ∈ Finset.range n := Finset.mem_range.mpr hl
  -- the sum without one column is at most that of full columns, and equal only if all are full
  have hsum := Finset.add_sum_erase (Finset.range n) size hmem
  have hconst : ∑ _j ∈ (Finset.range n).erase l, 16 = 16 * (n - 1) := by
    rw [Finset.sum_const_nat fun _ _ => rfl, Finset.card_erase_of_mem hmem, Finset.card_range,
      Nat.mul_comm]
  have hle : ∑ j ∈ (Finset.range n).erase l, size j ≤ ∑ _j ∈ (Finset.range n).erase l, 16 :=
    Finset.sum_le_sum fun j _ => hsize j
  have heq : ∑ j ∈ (Finset.range n).erase l, size j = ∑ _j ∈ (Finset.range n).erase l, 16 ↔
      ∀ j ∈ (Finset.range n).erase l, size j = 16 :=
    Finset.sum_eq_sum_iff_of_le fun j _ => hsize j
  refine ⟨by omega, ?_⟩
  calc ∑ j ∈ Finset.range n, size j = 16 * (n - 1) + size l
      ↔ ∑ j ∈ (Finset.range n).erase l, size j = ∑ _j ∈ (Finset.range n).erase l, 16 := by
        rw [hconst, ← hsum]
        omega
    _ ↔ ∀ j < n, j ≠ l → size j = 16 := by
        rw [heq]
        simp only [Finset.mem_erase, Finset.mem_range]
        exact ⟨fun h j hj hne => h j ⟨hne, hj⟩, fun h j hj => h j hj.2 hj.1⟩

/-- `n` places below `n` that differ are all places below `n`. -/
theorem exists_place_eq {place : Nat → Nat} {n : Nat} (hplace : ∀ j < n, place j < n)
    (hinj : ∀ i < n, ∀ j < n, place i = place j → i = j) : ∀ i < n, ∃ j < n, place j = i := by
  intro i hi
  have hsurj := Finset.surjOn_of_injOn_of_card_le (s := Finset.range n) (t := Finset.range n) place
    (fun j hj => by simpa using hplace j (by simpa using hj))
    (fun i hi j hj heq => hinj i (by simpa using hi) j (by simpa using hj) heq) (Nat.le_refl _)
  obtain ⟨j, hj, heq⟩ := hsurj (show i ∈ (Finset.range n : Set Nat) by simpa using hi)
  exact ⟨j, by simpa using hj, heq⟩

section
variable {n b s : Nat} {place size : Nat → Nat}

/-- Columns of different places are in one group behind the first: before it and at its start
all columns are 0, and at the end of a group the column is behind the chunk. -/
theorem one_group (hn : 2 ≤ n) (hsurj : ∀ i < n, ∃ j < n, place j = i) (hs : s ≤ 4090)
    (hinside : ∀ j < n, columnAt (b + place j) + size j ≤ s)
    (hapart : ∀ i < n, ∀ j < n, i ≠ j → columnAt (b + place i) ≠ columnAt (b + place j)) :
    1024 ≤ b ∧ b % 1024 + n ≤ 1024 := by
  have hgroup : 1024 ≤ b := by
    refine Nat.not_lt.mp fun hlt => ?_
    obtain ⟨i, hi, hi0⟩ := hsurj 0 (by omega)
    obtain ⟨j, hj, hj1⟩ := hsurj 1 (by omega)
    refine hapart i hi j hj (by rintro rfl; omega) ?_
    rw [hi0, hj1, columnAt_of_le (by omega), columnAt_of_le (by omega)]
  refine ⟨hgroup, Nat.not_lt.mp fun hlong => ?_⟩
  -- the last position of the group
  have hmod : b % 1024 < 1024 := Nat.mod_lt _ (by decide)
  obtain ⟨j, hj, hplace⟩ := hsurj (1023 - b % 1024) (by omega)
  have hin := hinside j hj
  rw [hplace, columnAt_add (by omega), show b % 1024 + (1023 - b % 1024) = 1023 by omega] at hin
  have hone : 1 ≤ b / 1024 := (Nat.one_le_div_iff (by decide)).mpr hgroup
  omega

/-- Columns that do not overlap start with the second group, and all fields but the last have
16 bytes. -/
theorem packed_of_apart (hn : 2 ≤ n) (hsurj : ∀ i < n, ∃ j < n, place j = i)
    (hsize : ∀ j, size j ≤ 16) (hs : s ≤ 4090) (hsum : s ≤ ∑ j ∈ Finset.range n, size j)
    (hinside : ∀ j < n, columnAt (b + place j) + size j ≤ s)
    (hapart : ∀ i < n, ∀ j < n, i ≠ j → columnAt (b + place i) ≠ columnAt (b + place j)) :
    b = 1024 ∧ ∑ j ∈ Finset.range n, size j = s ∧ ∀ j < n, place j ≠ n - 1 → size j = 16 := by
  obtain ⟨hgroup, hlong⟩ := one_group hn hsurj hs hinside hapart
  obtain ⟨l, hl, hlast⟩ := hsurj (n - 1) (by omega)
  obtain ⟨hle, heq⟩ := sum_sizes_le hl hsize
  have hin := hinside l hl
  rw [hlast, columnAt_add (by omega)] at hin
  have hone : 1 ≤ b / 1024 := (Nat.one_le_div_iff (by decide)).mpr hgroup
  -- the last column cannot be further than all other fields reach
  have hcolumn : 16 * (b / 1024) * (b % 1024 + (n - 1)) ≤ 16 * (n - 1) := by omega
  have hstep : 16 * (b % 1024 + (n - 1)) ≤ 16 * (b / 1024) * (b % 1024 + (n - 1)) :=
    Nat.mul_le_mul_right _ (by omega)
  have hmod : b % 1024 = 0 := by omega
  have hdiv : b / 1024 < 2 := by
    refine Nat.not_le.mp fun htwo => ?_
    have := Nat.mul_le_mul_right (b % 1024 + (n - 1)) (Nat.mul_le_mul_left 16 htwo)
    omega
  have hb : b = 1024 := by omega
  have hfull : ∑ j ∈ Finset.range n, size j = 16 * (n - 1) + size l := by omega
  refine ⟨hb, by omega, fun j hj hne => heq.mp hfull j hj ?_⟩
  rintro rfl
  exact hne hlast

/-- Columns of 16 bytes from the second group on do not overlap. -/
theorem apart_of_packed (hinj : ∀ i < n, ∀ j < n, place i = place j → i = j)
    (hplace : ∀ j < n, place j < n) (hlong : n ≤ 1024) (hsize : ∀ j, size j ≤ 16)
    (hquats : ∀ j < n, place j ≠ n - 1 → size j = 16) {l : Nat} (hl : l < n)
    (hlast : place l = n - 1) :
    (∀ j < n, columnAt (1024 + place j) + size j ≤ ∑ j ∈ Finset.range n, size j) ∧
      ∀ i < n, ∀ j < n, i ≠ j →
        columnAt (1024 + place i) + size i ≤ columnAt (1024 + place j) ∨
          columnAt (1024 + place j) + size j ≤ columnAt (1024 + place i) := by
  -- the columns lie side by side, and every one but the last is full
  have hcolumn : ∀ j < n, columnAt (1024 + place j) = 16 * place j := by
    intro j hj
    have := hplace j hj
    rw [columnAt_add (show 1024 % 1024 + place j < 1024 by omega), Nat.mod_self, Nat.zero_add]
  have hsum : ∑ j ∈ Finset.range n, size j = 16 * (n - 1) + size l :=
    (sum_sizes_le hl hsize).2.mpr fun j hj hne =>
      hquats j hj fun heq => hne (hinj j hj l hl (heq.trans hlast.symm))
  refine ⟨fun j hj => ?_, fun i hi j hj hij => ?_⟩
  · rw [hcolumn j hj, hsum]
    by_cases heq : place j = n - 1
    · rw [hinj j hj l hl (heq.trans hlast.symm), hlast]
    · have := hplace j hj
      rw [hquats j hj heq]
      omega
  · rw [hcolumn i hi, hcolumn j hj]
    have hne : place i ≠ place j := fun heq => hij (hinj i hi j hj heq)
    have hi16 := hsize i
    have hj16 := hsize j
    omega

end

/-! ### Components -/

/-- The sizes in the entries of a run. -/
theorem HandleRun.sizes {ac fc cc : UInt16} {memory : TableMemory}
    {cs : List (CreateCall × UInt16)} {m : TableManager}
    (h : HandleRun (tableManagerInit ac fc cc memory) cs m) :
    ∀ x ∈ cs, (entryOf m x.2).entrySize = archetypeEntrySize x.1.fields x.1.fieldCount ∧
      (entryOf m x.2).capacity = tableEntryCapacity x.1.fields x.1.fieldCount := by
  induction h with
  | refl => simp
  | @ok cs m' handle m'' c hrun hcall ih =>
      rcases vmCreateArchetype_cases m' c with ⟨handle', m₁, hok, hcreated⟩ | herror
      · rw [hok] at hcall
        cases hcall
        intro x hx
        rcases List.mem_append.mp hx with hold | hnew
        · -- the entry of an earlier archetype is below the new one
          obtain ⟨i, hi⟩ := List.mem_iff_getElem?.mp hold
          have hcount : m'.archetypeCount.toNat = cs.length := by
            rw [hrun.isRegistry.count, List.length_map]
          have hlt := (List.getElem?_eq_some_iff.mp hi).1
          have hmax := m'.archetypeCount.toNat_lt
          have hval : x.2.toNat - 1 = i := by
            rw [hrun.getElem?_handle hi,
              UInt16.toNat_ofNat_of_lt' (show i + 1 < 65536 by omega), Nat.add_sub_cancel]
          have hentry : entryOf m'' x.2 = entryOf m' x.2 := by
            rw [entryOf, hval, hcreated.archetypes i (by omega), entryOf, hval]
          rw [hentry]
          exact ih x hold
        · rw [List.mem_singleton] at hnew
          rw [hnew]
          exact entry_of_created hok
      · rw [herror] at hcall
        cases hcall
  | @error cs m' e handle m'' c hrun hcall ih =>
      rcases vmCreateArchetype_cases m' c with ⟨handle', m₁, hok, -⟩ | herror
      · rw [hok] at hcall
        cases hcall
      · rw [herror] at hcall
        cases hcall
        exact ih

/-- The rows of a chunk end inside it. -/
theorem rows_le_chunkSize (size : Nat) : size * (chunkSize / (size + 6)) ≤ chunkSize :=
  Nat.le_trans (Nat.mul_le_mul_right _ (Nat.le_add_right size 6)) (Nat.mul_div_le _ _)

/-- The sizes of which a chunk has room for one row. -/
theorem rows_eq_one_iff (size : Nat) :
    chunkSize / (size + 6) = 1 ↔ 2042 < size ∧ size ≤ 4090 := by
  show 4096 / (size + 6) = 1 ↔ _
  have hlow : 1 ≤ 4096 / (size + 6) ↔ size + 6 ≤ 4096 := Nat.one_le_div_iff (by omega)
  have hhigh : 4096 / (size + 6) < 2 ↔ 4096 < 2 * (size + 6) := Nat.div_lt_iff_lt_mul (by omega)
  omega

/-- A component has from four to sixteen bytes. -/
theorem componentSize_bounds (c : CreateCall) (j : Nat) :
    4 ≤ componentSize c j ∧ componentSize c j ≤ 16 := by
  unfold componentSize
  cases (c.fields j).primitive <;> decide

/-- Only a quaternion has sixteen bytes. -/
theorem componentSize_eq_iff (c : CreateCall) (j : Nat) :
    componentSize c j = 16 ↔ (c.fields j).primitive = .quat := by
  unfold componentSize
  cases (c.fields j).primitive <;> decide

/-- A row is as long as its components together. -/
theorem tableBytes_eq_sum (c : CreateCall) :
    tableBytes c = ∑ j ∈ Finset.range c.fieldCount.toNat, componentSize c j :=
  sum_map_range _ _

section
variable {ac fc cc : UInt16} {memory : TableMemory} {pre post : List (CreateCall × UInt16)}
  {c : CreateCall} {handle : UInt16} {m : TableManager}

/-- A field that is found has its component in the column of its position. -/
theorem HandleRun.componentAt_eq
    (hrun : HandleRun (tableManagerInit ac fc cc memory) (pre ++ (c, handle) :: post) m)
    {e : UInt32} {i j q : Nat} (hnamed : fieldNamed c (uid (c.fields j).name) = some i)
    (hq : fieldsOf (pre.map Prod.fst) + i = q + 1) :
    componentAt m handle c e j = some ((entityChunk e).toNat * chunkSize + columnAt q) := by
  have hi : i < c.fieldCount.toNat :=
    List.mem_range.mp (List.mem_of_find?_eq_some hnamed)
  have hlt := hrun.fields_lt
  rw [componentAt, hrun.archetypeFindField_eq, hnamed]
  show some (archetypeField e (UInt32.ofNat (fieldsOf (pre.map Prod.fst) + i))) = _
  rw [hq, archetypeField_ofNat e (by omega)]

/-- A component inside the rows of its chunk belongs to a field that is found, behind the first
position of the pool. -/
theorem HandleRun.found_of_inside
    (hrun : HandleRun (tableManagerInit ac fc cc memory) (pre ++ (c, handle) :: post) m)
    {e : UInt32} {j a : Nat} (ha : componentAt m handle c e j = some a)
    (hin : a < (entityChunk e).toNat * chunkSize + 4092 * 4092) :
    ∃ i q, fieldNamed c (uid (c.fields j).name) = some i ∧
      fieldsOf (pre.map Prod.fst) + i = q + 1 := by
  rw [componentAt, hrun.archetypeFindField_eq, Option.map_some, Option.some.injEq] at ha
  -- a field that is not found, or that is the first one of the pool, gives an address behind the
  -- chunk
  have hzero := archetypeField_zero e
  cases hnamed : fieldNamed c (uid (c.fields j).name) with
  | none =>
      rw [hnamed] at ha
      exact absurd hin (Nat.not_lt.mpr (ha ▸ hzero))
  | some i =>
      rw [hnamed] at ha
      cases hsum : fieldsOf (pre.map Prod.fst) + i with
      | zero =>
          have ha0 : archetypeField e (UInt32.ofNat (fieldsOf (pre.map Prod.fst) + i)) = a := ha
          rw [hsum] at ha0
          exact absurd hin (Nat.not_lt.mpr (ha0 ▸ hzero))
      | succ q => exact ⟨i, q, rfl, hsum⟩

end

/-- The field that is found is one of the archetype and has the name. -/
theorem fieldNamed_some {c : CreateCall} {u : UInt32} {i : Nat} (h : fieldNamed c u = some i) :
    i < c.fieldCount.toNat ∧ storedUid (c.fields i).name = u :=
  ⟨List.mem_range.mp (List.mem_of_find?_eq_some h), by simpa using List.find?_some h⟩

/-- The place of the field that is found by the name of the field `j`. -/
def placeOf (c : CreateCall) (j : Nat) : Nat := (fieldNamed c (uid (c.fields j).name)).getD 0

section
variable {ac fc cc : UInt16} {memory : TableMemory} {pre post : List (CreateCall × UInt16)}
  {c : CreateCall} {handle : UInt16} {m : TableManager}

/-- The size of a row and the number of rows, as the entry of the archetype has them. -/
theorem HandleRun.toNat_sizes
    (hrun : HandleRun (tableManagerInit ac fc cc memory) (pre ++ (c, handle) :: post) m) :
    (entryOf m handle).entrySize.toNat = tableBytes c % 65536 ∧
      (entryOf m handle).capacity.toNat = chunkSize / (tableBytes c % 65536 + 6) := by
  obtain ⟨hsize, hcapacity⟩ := hrun.sizes (c, handle) (by simp)
  rw [hsize, hcapacity, toNat_archetypeEntrySize, toNat_tableEntryCapacity]
  exact ⟨rfl, rfl⟩

/-- The field `j` is found, and behind the first position of the pool. -/
def IsPlaced (offset : Nat) (c : CreateCall) (j : Nat) : Prop :=
  fieldNamed c (uid (c.fields j).name) = some (placeOf c j) ∧ 1 ≤ offset + placeOf c j

/-- The place of a field is one of the archetype. -/
theorem IsPlaced.lt {offset j : Nat} (h : IsPlaced offset c j) :
    placeOf c j < c.fieldCount.toNat := (fieldNamed_some h.1).1

/-- The field at the place has the name that was looked for. -/
theorem IsPlaced.storedUid_eq {offset j : Nat} (h : IsPlaced offset c j) :
    storedUid (c.fields (placeOf c j)).name = uid (c.fields j).name := (fieldNamed_some h.1).2

/-- The address of a component that is found: its chunk, and the column of its place in the pool. -/
theorem HandleRun.componentAt_place
    (hrun : HandleRun (tableManagerInit ac fc cc memory) (pre ++ (c, handle) :: post) m)
    {j : Nat} (h : IsPlaced (fieldsOf (pre.map Prod.fst)) c j) (e : UInt32) :
    componentAt m handle c e j = some ((entityChunk e).toNat * chunkSize +
      columnAt (fieldsOf (pre.map Prod.fst) + placeOf c j - 1)) :=
  hrun.componentAt_eq h.1 (Nat.sub_add_cancel h.2).symm

/-- A component inside the rows of its chunk belongs to a placed field. -/
theorem HandleRun.isPlaced
    (hrun : HandleRun (tableManagerInit ac fc cc memory) (pre ++ (c, handle) :: post) m)
    (h : DisjointStorage m handle c) {e : UInt32} (he : IsEntityOf m handle e) {j : Nat}
    (hj : j < c.fieldCount.toNat) : IsPlaced (fieldsOf (pre.map Prod.fst)) c j := by
  obtain ⟨hsize, hcapacity⟩ := hrun.toNat_sizes
  obtain ⟨a, ha, -, hend⟩ := h.inside e he j hj
  have hrows : (entryOf m handle).entrySize.toNat * (entryOf m handle).capacity.toNat ≤
      chunkSize := by
    rw [hsize, hcapacity]
    exact rows_le_chunkSize _
  have hchunk : chunkSize ≤ 4092 * 4092 := by decide
  have hpos := (componentSize_bounds c j).1
  obtain ⟨i, q, hnamed, hq⟩ := hrun.found_of_inside ha (by omega)
  have heq : placeOf c j = i := by
    rw [placeOf, hnamed]
    rfl
  exact ⟨by rw [heq, hnamed], by omega⟩

/-- If the components have bytes of their own, the fields are packed quaternions. -/
theorem packedQuats_of_disjointStorage
    (hrun : HandleRun (tableManagerInit ac fc cc memory) (pre ++ (c, handle) :: post) m)
    (hcap : 1 ≤ (entryOf m handle).capacity.toNat) (hchunk : 0 < m.chunkCapacity.toNat)
    (hfields : 0 < c.fieldCount.toNat) (h : DisjointStorage m handle c) :
    PackedQuats (fieldsOf (pre.map Prod.fst)) c := by
  obtain ⟨hsize, hcapacity⟩ := hrun.toNat_sizes
  -- the entity in the first row of the first chunk
  have hfirst : IsEntityOf m handle 1 := ⟨hchunk, hcap⟩
  have hplaced : ∀ j < c.fieldCount.toNat, IsPlaced (fieldsOf (pre.map Prod.fst)) c j :=
    fun j hj => hrun.isPlaced h hfirst hj
  have haddr := fun j hj => hrun.componentAt_place (hplaced j hj)
  have hshared : ∀ e e', IsEntityOf m handle e → IsEntityOf m handle e' →
      (entityChunk e).toNat = (entityChunk e').toNat → ∀ i < c.fieldCount.toNat,
      ∀ j < c.fieldCount.toNat, i ≠ j ∨ e ≠ e' →
      columnAt (fieldsOf (pre.map Prod.fst) + placeOf c i - 1) ≠
        columnAt (fieldsOf (pre.map Prod.fst) + placeOf c j - 1) := by
    intro e e' he he' heq i hi j hj hne hcol
    have hapart := h.apart e e' he he' i hi j hj hne _ _ (haddr i hi e) (haddr j hj e')
    rw [heq, hcol] at hapart
    have hi4 := (componentSize_bounds c i).1
    have hj4 := (componentSize_bounds c j).1
    unfold Apart Address at hapart
    omega
  have hinj : ∀ i < c.fieldCount.toNat, ∀ j < c.fieldCount.toNat,
      placeOf c i = placeOf c j → i = j := by
    intro i hi j hj heq
    by_contra hne
    exact hshared 1 1 hfirst hfirst rfl i hi j hj (Or.inl hne) (by rw [heq])
  have hsurj := exists_place_eq (fun j hj => (hplaced j hj).lt) hinj
  -- a chunk has only one row, since the rows share their columns
  have hone : (entryOf m handle).capacity.toNat = 1 := by
    refine Nat.le_antisymm (Nat.not_lt.mp fun htwo => ?_) hcap
    have hsecond : IsEntityOf m handle 2 := ⟨hchunk, htwo⟩
    exact hshared 1 2 hfirst hsecond rfl 0 hfields 0 hfields (Or.inr (by decide)) rfl
  obtain ⟨hlow, hhigh⟩ := (rows_eq_one_iff _).mp (hcapacity.symm.trans hone)
  have hmod : tableBytes c % 65536 ≤ ∑ j ∈ Finset.range c.fieldCount.toNat, componentSize c j :=
    Nat.le_trans (Nat.mod_le _ _) (Nat.le_of_eq (tableBytes_eq_sum c))
  have hsize16 : ∀ j, componentSize c j ≤ 16 := fun j => (componentSize_bounds c j).2
  have hmany : 2 ≤ c.fieldCount.toNat := by
    have hsum := (sum_sizes_le hfields hsize16).1
    have h0 := hsize16 0
    omega
  obtain ⟨z, hz, hz0⟩ := hsurj 0 hfields
  have hoffset := (hplaced z hz).2
  rw [hz0] at hoffset
  have hsub : ∀ i, fieldsOf (pre.map Prod.fst) + i - 1 = fieldsOf (pre.map Prod.fst) - 1 + i :=
    fun i => by omega
  have hinside : ∀ j < c.fieldCount.toNat, columnAt (fieldsOf (pre.map Prod.fst) - 1 +
      placeOf c j) + componentSize c j ≤ tableBytes c % 65536 := by
    intro j hj
    obtain ⟨a, ha, -, hend⟩ := h.inside 1 hfirst j hj
    rw [haddr j hj, hsub, Option.some.injEq] at ha
    rw [hsize, hone] at hend
    omega
  have hcolumns : ∀ i < c.fieldCount.toNat, ∀ j < c.fieldCount.toNat, i ≠ j →
      columnAt (fieldsOf (pre.map Prod.fst) - 1 + placeOf c i) ≠
        columnAt (fieldsOf (pre.map Prod.fst) - 1 + placeOf c j) := by
    intro i hi j hj hne
    rw [← hsub, ← hsub]
    exact hshared 1 1 hfirst hfirst rfl i hi j hj (Or.inl hne)
  obtain ⟨hb, hsum, hquats⟩ :=
    packed_of_apart hmany hsurj hsize16 hhigh hmod hinside hcolumns
  rw [← tableBytes_eq_sum] at hsum
  constructor
  case offset_eq => omega
  case bytes => omega
  case quats =>
    intro j hj hname
    refine (componentSize_eq_iff c j).mp (hquats j hj fun hlast => hname ?_)
    rw [← hlast, (hplaced j hj).storedUid_eq]
  case names =>
    intro i hi j hj heq
    exact hinj i hi j hj (by rw [placeOf, heq, placeOf])
  case stored =>
    intro j hj
    exact ⟨placeOf c j, (hplaced j hj).lt, (hplaced j hj).storedUid_eq⟩

/-- Packed quaternions have bytes of their own. -/
theorem disjointStorage_of_packedQuats
    (hrun : HandleRun (tableManagerInit ac fc cc memory) (pre ++ (c, handle) :: post) m)
    (h : PackedQuats (fieldsOf (pre.map Prod.fst)) c) : DisjointStorage m handle c := by
  obtain ⟨hsize, hcapacity⟩ := hrun.toNat_sizes
  -- the table fits in a chunk, so its size does not wrap around and there is one row
  have hbytes : tableBytes c % 65536 = tableBytes c := by
    have := h.bytes
    omega
  rw [hbytes] at hsize hcapacity
  have hone : (entryOf m handle).capacity.toNat = 1 :=
    hcapacity.trans ((rows_eq_one_iff _).mpr h.bytes)
  -- every field is found under its own name, at its place in the pool
  have hplaced : ∀ j < c.fieldCount.toNat, IsPlaced (fieldsOf (pre.map Prod.fst)) c j := by
    intro j hj
    obtain ⟨i, hi, hstored⟩ := h.stored j hj
    have hsome : (fieldNamed c (uid (c.fields j).name)).isSome := by
      rw [fieldNamed, List.find?_isSome]
      exact ⟨i, List.mem_range.mpr hi, decide_eq_true hstored⟩
    obtain ⟨k, hk⟩ := Option.isSome_iff_exists.mp hsome
    have heq : placeOf c j = k := by
      rw [placeOf, hk]
      rfl
    exact ⟨by rw [heq, hk], by rw [h.offset_eq]; omega⟩
  -- the names are different, so no two fields have one place, and every place is taken
  have hinj : ∀ i < c.fieldCount.toNat, ∀ j < c.fieldCount.toNat,
      placeOf c i = placeOf c j → i = j := by
    intro i hi j hj heq
    refine h.names i hi j hj ?_
    rw [← (hplaced i hi).storedUid_eq, ← (hplaced j hj).storedUid_eq, heq]
  have hsurj := exists_place_eq (fun j hj => (hplaced j hj).lt) hinj
  have hsum := tableBytes_eq_sum c
  -- every component has at least four bytes, so the places are inside the chunk
  have hfour : c.fieldCount.toNat * 4 ≤ tableBytes c := by
    rw [hsum, ← Finset.card_range c.fieldCount.toNat,
      ← Finset.sum_const_nat (f := fun _ => 4) fun _ _ => rfl, Finset.card_range]
    exact Finset.sum_le_sum fun j _ => (componentSize_bounds c j).1
  have hbounds := h.bytes
  have hpos : 0 < c.fieldCount.toNat := by
    refine Nat.pos_of_ne_zero fun hz => ?_
    rw [hsum, hz, Finset.sum_range_zero] at hbounds
    omega
  obtain ⟨l, hl, hlast⟩ := hsurj (c.fieldCount.toNat - 1) (by omega)
  -- all fields but the last one are quaternions
  have hquats : ∀ j < c.fieldCount.toNat, placeOf c j ≠ c.fieldCount.toNat - 1 →
      componentSize c j = 16 := by
    intro j hj hne
    refine (componentSize_eq_iff c j).mpr (h.quats j hj fun hname => hne ?_)
    rw [← hlast, (hplaced l hl).storedUid_eq] at hname
    rw [h.names j hj l hl hname, hlast]
  obtain ⟨hinside, hapart⟩ := apart_of_packed hinj (fun j hj => (hplaced j hj).lt) (by omega)
    (fun j => (componentSize_bounds c j).2) hquats hl hlast
  rw [← hsum] at hinside
  -- the address of a component by the place of its field
  have haddr : ∀ e, ∀ j < c.fieldCount.toNat, componentAt m handle c e j =
      some ((entityChunk e).toNat * 4096 + columnAt (1024 + placeOf c j)) := by
    intro e j hj
    have heq := hrun.componentAt_place (hplaced j hj) e
    rw [h.offset_eq, show 1025 + placeOf c j - 1 = 1024 + placeOf c j by omega] at heq
    exact heq
  refine ⟨fun e _ j hj => ⟨_, haddr e j hj, Nat.le_add_right _ _, ?_⟩,
    fun e e' he he' i hi j hj hne a b ha hb => ?_⟩
  · rw [hsize, hone]
    have hin := hinside j hj
    show (entityChunk e).toNat * 4096 + _ + _ ≤ (entityChunk e).toNat * 4096 + _
    omega
  · rw [haddr e i hi, Option.some.injEq] at ha
    rw [haddr e' j hj, Option.some.injEq] at hb
    have hini := hinside i hi
    have hinj' := hinside j hj
    show a + componentSize c i ≤ b ∨ b + componentSize c j ≤ a
    rcases Nat.lt_trichotomy (entityChunk e).toNat (entityChunk e').toNat with hlt | heq | hgt
    · exact Or.inl (by omega)
    · -- a chunk has one row: two entities in it are the same one
      have hrow := he.index
      have hrow' := he'.index
      have hsame : e = e' := entity_ext heq (by omega)
      have hij : i ≠ j := hne.resolve_right (not_not_intro hsame)
      have := hapart i hi j hj hij
      omega
    · exact Or.inr (by omega)

/-- The components of an archetype with a row in each chunk have bytes of their own exactly when
there is no chunk, when there is no field, or when the fields are packed quaternions. -/
theorem disjointStorage_iff
    (hrun : HandleRun (tableManagerInit ac fc cc memory) (pre ++ (c, handle) :: post) m)
    (hcap : 1 ≤ (entryOf m handle).capacity.toNat) :
    DisjointStorage m handle c ↔ m.chunkCapacity.toNat = 0 ∨ c.fieldCount.toNat = 0 ∨
      PackedQuats (fieldsOf (pre.map Prod.fst)) c := by
  constructor
  · intro h
    by_cases hchunk : m.chunkCapacity.toNat = 0
    · exact Or.inl hchunk
    by_cases hfields : c.fieldCount.toNat = 0
    · exact Or.inr (Or.inl hfields)
    exact Or.inr (Or.inr (packedQuats_of_disjointStorage hrun hcap (Nat.pos_of_ne_zero hchunk)
      (Nat.pos_of_ne_zero hfields) h))
  · rintro (hchunk | hfields | hpacked)
    · -- without chunks there are no entities
      have hnone : ∀ e, ¬ IsEntityOf m handle e := fun e he => by
        have := he.chunk
        omega
      exact ⟨fun e he => absurd he (hnone e), fun e _ he => absurd he (hnone e)⟩
    · exact ⟨fun e _ j hj => absurd hj (by omega), fun e _ _ _ i hi => absurd hi (by omega)⟩
    · exact disjointStorage_of_packedQuats hrun hpacked

end

/-- Two fields of `enemy` are found at the same address. -/
theorem componentAt_enemy :
    ∃ m, HandleRun (tableManagerInit 2 4 1 filledMemory) [(player, 1), (enemy, 2)] m ∧
      1 ≤ (entryOf m 2).capacity.toNat ∧ IsEntityOf m 2 1 ∧
      componentAt m 2 enemy 1 0 = some 0 ∧ componentAt m 2 enemy 1 1 = some 0 := by
  have hrun : HandleRun (tableManagerInit 2 4 1 filledMemory) [(player, 1), (enemy, 2)] _ :=
    .ok _ (.ok _ .refl rfl) rfl
  refine ⟨_, hrun, ?_, ⟨?_, ?_⟩, ?_, ?_⟩ <;> decide +kernel

/-- The two fields of the first entity of `enemy` share their bytes. -/
theorem enemy_shares_bytes :
    ∃ m, HandleRun (tableManagerInit 2 4 1 filledMemory) [(player, 1), (enemy, 2)] m ∧
      1 ≤ (entryOf m 2).capacity.toNat ∧ IsEntityOf m 2 1 ∧
      componentAt m 2 enemy 1 0 = some 0 ∧ componentAt m 2 enemy 1 1 = some 0 ∧
      ¬ DisjointStorage m 2 enemy := by
  obtain ⟨m, hrun, hcap, hentity, hhealth, hspeed⟩ := componentAt_enemy
  refine ⟨m, hrun, hcap, hentity, hhealth, hspeed, fun h => ?_⟩
  have hapart := h.apart 1 1 hentity hentity 0 (by decide) 1 (by decide) (Or.inl (by decide))
    0 0 hhealth hspeed
  exact absurd (show 0 + 4 ≤ 0 ∨ 0 + 4 ≤ 0 from hapart) (by decide)

/-- The registry of `player` and `enemy` meets the hypotheses of the theorem. -/
theorem disjointStorage_iff_enemy :
    ∃ m, HandleRun (tableManagerInit 2 4 1 filledMemory) [(player, 1), (enemy, 2)] m ∧
      (DisjointStorage m 2 enemy ↔ m.chunkCapacity.toNat = 0 ∨ enemy.fieldCount.toNat = 0 ∨
        PackedQuats (fieldsOf [player]) enemy) := by
  obtain ⟨m, hrun, hcap, -⟩ := componentAt_enemy
  have hsplit : HandleRun (tableManagerInit 2 4 1 filledMemory)
      ([(player, 1)] ++ (enemy, 2) :: []) m := hrun
  exact ⟨m, hrun, disjointStorage_iff hsplit hcap⟩

end Nucleus.Proofs
