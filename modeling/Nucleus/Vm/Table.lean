import Mathlib.Algebra.Ring.Nat
import Nucleus.Vm.Ident
import Nucleus.Vm.Types

/-!
# `Nucleus.Vm.Table`: archetypes, chunks and entities

The table manager of `vm/table.h`: archetypes with their fields, chunks of 4096 bytes that
hold the rows of one archetype each, and entities, which are a chunk and an index.

The four arrays of the manager are blocks of the allocator, so they have some content before
they are written (`TableMemory`). An access outside a block, a failed assertion and a loop
that does not end give `none`: the source promises nothing from there on. Words are stored
with their low byte first.
-/

set_option autoImplicit false

namespace Nucleus.Vm

/-- `NU_CHUNK_SIZE`. -/
def chunkSize : Nat := 4096

/-- `NU_CHUNK_NONE`. -/
def chunkNone : UInt16 := 0xffff

/-- `nu_field_info_t`. -/
structure FieldInfo where
  name : List Char
  primitive : Primitive
  archetype : UInt16

/-- `nu__archetype_entry_t`. -/
structure ArchetypeEntry where
  capacity : UInt16
  entrySize : UInt16
  firstChunk : UInt16
  firstFieldOffset : UInt32
  fieldCount : UInt16
  next : UInt16
  name : Ident

/-- `nu__field_entry_t`. -/
structure FieldEntry where
  primitive : Primitive
  archetype : UInt16
  name : Ident

/-- `nu__chunk_entry_t`. -/
structure ChunkEntry where
  next : UInt16
  free : UInt16

/-- The content of the four blocks before the manager writes them. -/
structure TableMemory where
  archetypes : Nat → ArchetypeEntry
  fields : Nat → FieldEntry
  chunks : Nat → ChunkEntry
  data : Nat → UInt8

/-- `nu__table_manager_t`. -/
structure TableManager extends TableMemory where
  archetypeCapacity : UInt16
  fieldCapacity : UInt16
  chunkCapacity : UInt16
  archetypeCount : UInt16
  fieldCount : UInt16
  firstArchetype : UInt16
  freeChunk : UInt16

/-! ### Entities -/

/-- `nu__entity_index`. -/
def entityIndex (e : UInt32) : UInt16 := ((e - 1) &&& 0xffff).toUInt16

/-- `nu__entity_chunk`. -/
def entityChunk (e : UInt32) : UInt16 := ((e - 1) >>> 16).toUInt16

/-- `nu__entity_build`. -/
def entityBuild (chunk index : UInt16) : UInt32 :=
  ((chunk.toUInt32 <<< 16) ||| index.toUInt32) + 1

/-! ### Fields -/

/-- `nu__field_offset`. -/
def fieldOffset (f : UInt32) : UInt16 := (((f - 1) &&& 0x3ff) <<< 2).toUInt16

/-- `nu__field_capacity`. -/
def fieldCapacity (f : UInt32) : UInt16 := ((((f - 1) >>> 10) &&& 0x3ff) <<< 2).toUInt16

/-- `nu__field_size`. -/
def fieldSize (f : UInt32) : UInt16 := ((((f - 1) >>> 20) &&& 0x3ff) <<< 2).toUInt16

/-- `nu__archetype_field`, as an offset from `manager->data`. -/
def archetypeField (e f : UInt32) : Nat :=
  (entityChunk e).toNat * chunkSize + (fieldCapacity f).toNat * (fieldOffset f).toNat +
    (entityIndex e).toNat * (fieldSize f).toNat

/-! ### Archetypes -/

/-- `nu__field_type_size`. -/
def fieldTypeSize : Primitive → Nat
  | .vec3 => 12
  | .quat => 16
  | .entity => 8
  -- the default of the source, for the vectors of two and four and the matrix too
  | _ => 4

/-- `nu__archetype_entry_size`: the sum of the sizes, as a 16-bit number. -/
def archetypeEntrySize (fields : Nat → FieldInfo) (fieldCount : UInt16) : UInt16 :=
  UInt16.ofNat ((List.range fieldCount.toNat).map fun i => fieldTypeSize (fields i).primitive).sum

/-- `nu__table_entry_capacity`. -/
def tableEntryCapacity (fields : Nat → FieldInfo) (fieldCount : UInt16) : UInt16 :=
  UInt16.ofNat (chunkSize / ((archetypeEntrySize fields fieldCount).toNat + 4 + 2))

/-- One turn of the loop of `nu__archetype_create` that inserts the fields. -/
def insertField (fields : Nat → FieldInfo) (m : TableManager) (i : Nat) : TableManager :=
  let slot := m.fieldCount.toNat
  let entry : FieldEntry :=
    { primitive := (fields i).primitive
      archetype := (fields i).archetype
      name := identSetStr (m.fields slot).name (fields i).name }
  { m with
      fields := fun j => if j = slot then entry else m.fields j
      fieldCount := m.fieldCount + 1 }

/-- `nu__archetype_create`: the handle, or `NU_ERROR_OUT_OF_MEMORY`. -/
def archetypeCreate (m : TableManager) (name : List Char) (fields : Nat → FieldInfo)
    (fieldCount : UInt16) : Except Error UInt16 × TableManager :=
  if m.archetypeCount.toNat + 1 > m.archetypeCapacity.toNat ∨
      m.fieldCount.toNat + fieldCount.toNat > m.fieldCapacity.toNat then
    (.error .outOfMemory, m)
  else
    let firstField := m.fieldCount
    let m := (List.range fieldCount.toNat).foldl (insertField fields) m
    let index := m.archetypeCount
    let entry : ArchetypeEntry :=
      { firstChunk := chunkNone
        entrySize := archetypeEntrySize fields fieldCount
        capacity := tableEntryCapacity fields fieldCount
        firstFieldOffset := firstField.toUInt32
        fieldCount
        next := m.firstArchetype
        name := identSetStr (m.archetypes index.toNat).name name }
    let archetype := index + 1
    (.ok archetype,
      { m with
          archetypes := fun j => if j = index.toNat then entry else m.archetypes j
          firstArchetype := archetype
          archetypeCount := m.archetypeCount + 1 })

/-- `nu_vm_create_archetype` on `vm->tables`, with an address for the handle: the error, and the
handle it stores. `nu__archetype_create` stores `NU_NULL` before its check. -/
def vmCreateArchetype (m : TableManager) (name : List Char) (fields : Nat → FieldInfo)
    (fieldCount : UInt16) : Option Error × UInt16 × TableManager :=
  match archetypeCreate m name fields fieldCount with
  | (.ok archetype, m) => (none, archetype, m)
  -- the caller gets `NU_NULL` with the error
  | (.error e, m) => (some e, 0, m)

/-- The loop of `nu__archetype_find`. A walk that visits more entries than there are is in a
cycle. -/
def archetypeFindLoop (m : TableManager) (uid : UInt32) : Nat → UInt16 → Option UInt16
  | 0, _ => none
  | fuel + 1, current =>
      if current = 0 then some 0
      else
        let index := current - 1
        if index.toNat ≥ m.archetypeCapacity.toNat then none
        else if identUid (m.archetypes index.toNat).name = uid then some current
        else archetypeFindLoop m uid fuel (m.archetypes index.toNat).next

/-- `nu__archetype_find`: `NU_ARCHETYPE_NULL` when no name has the hash `uid`. -/
def archetypeFind (m : TableManager) (uid : UInt32) : Option UInt16 :=
  archetypeFindLoop m uid (m.archetypeCapacity.toNat + 1) m.firstArchetype

/-- The loop of `nu__archetype_find_field` from the field `i` on, with `n` fields to go. -/
def findFieldLoop (m : TableManager) (uid : UInt32) : Nat → Nat → Option UInt32
  | 0, _ => some 0
  | n + 1, i =>
      if i ≥ m.fieldCapacity.toNat then none
      -- the position in the pool, which is `NU_NULL` for the first field of all
      else if identUid (m.fields i).name = uid then some (UInt32.ofNat i)
      else findFieldLoop m uid n (i + 1)

/-- `nu__archetype_find_field`: `NU_NULL` when no field of the archetype has the hash `uid`. -/
def archetypeFindField (m : TableManager) (archetype : UInt16) (uid : UInt32) :
    Option UInt32 :=
  let index := archetype - 1
  if index.toNat ≥ m.archetypeCapacity.toNat then none
  else
    let entry := m.archetypes index.toNat
    let first := entry.firstFieldOffset
    let last := first + entry.fieldCount.toUInt32
    findFieldLoop m uid (last.toNat - first.toNat) first.toNat

/-! ### Chunks -/

/-- The loop of `nu__archetype_find_chunk`. A walk that visits more chunks than there are is
in a cycle. -/
def findChunkLoop (m : TableManager) : Nat → UInt16 → Option UInt16
  | 0, _ => none
  | fuel + 1, current =>
      if current = chunkNone then some chunkNone
      else if current.toNat ≥ m.chunkCapacity.toNat then none
      else if (m.chunks current.toNat).free ≠ 0 then some current
      else findChunkLoop m fuel (m.chunks current.toNat).next

/-- `nu__archetype_find_chunk`. -/
def archetypeFindChunk (m : TableManager) (firstChunk : UInt16) : Option UInt16 :=
  findChunkLoop m (m.chunkCapacity.toNat + 1) firstChunk

/-- `nu__chunk_entities`, as an offset from `manager->data`. -/
def chunkEntities (table : ArchetypeEntry) (chunk : UInt16) : Nat :=
  chunk.toNat * chunkSize + table.entrySize.toNat * table.capacity.toNat

/-- `nu__chunk_indices`, as an offset from `manager->data`. -/
def chunkIndices (table : ArchetypeEntry) (chunk : UInt16) : Nat :=
  chunk.toNat * chunkSize + (table.entrySize.toNat + 4) * table.capacity.toNat

/-- `entities[i]`. -/
def loadEntity (m : TableManager) (entities i : Nat) : Option UInt32 :=
  let a := entities + 4 * i
  if a + 4 > chunkSize * m.chunkCapacity.toNat then none
  else
    some ((m.data a).toUInt32 ||| ((m.data (a + 1)).toUInt32 <<< 8) |||
      ((m.data (a + 2)).toUInt32 <<< 16) ||| ((m.data (a + 3)).toUInt32 <<< 24))

/-- `indices[i]`. -/
def loadIndex (m : TableManager) (indices i : Nat) : Option UInt16 :=
  let a := indices + 2 * i
  if a + 2 > chunkSize * m.chunkCapacity.toNat then none
  else some ((m.data a).toUInt16 ||| ((m.data (a + 1)).toUInt16 <<< 8))

/-- `indices[i] = v`. -/
def storeIndex (m : TableManager) (indices i : Nat) (v : UInt16) : Option TableManager :=
  let a := indices + 2 * i
  if a + 2 > chunkSize * m.chunkCapacity.toNat then none
  else
    some { m with
      data := fun j =>
        if j = a then v.toUInt8 else if j = a + 1 then (v >>> 8).toUInt8 else m.data j }

/-- Store `f` of the chunk entry at `chunk`. -/
def modifyChunk (m : TableManager) (chunk : UInt16) (f : ChunkEntry → ChunkEntry) :
    TableManager :=
  { m with chunks := fun j => if j = chunk.toNat then f (m.chunks j) else m.chunks j }

/-- The chunk that `nu__spawn` uses: one that `nu__archetype_find_chunk` finds, or the first
free one. -/
def spawnChunk (m : TableManager) (entry : ArchetypeEntry) : Option (UInt16 × TableManager) :=
  match archetypeFindChunk m entry.firstChunk with
  | none => none
  | some found =>
      if found ≠ chunkNone then some (found, m)
      else if m.freeChunk = chunkNone ∨ m.freeChunk.toNat ≥ m.chunkCapacity.toNat then none
      else
        let chunk := m.freeChunk
        -- the chunk leaves the free list, and no archetype links to it
        let m := { m with freeChunk := (m.chunks chunk.toNat).next }
        some (chunk, modifyChunk m chunk fun c => { c with free := entry.capacity })

/-- `nu__spawn`. It reads the entry of its archetype at the handle, not at the handle's
index. -/
def spawn (m : TableManager) (archetype : UInt16) : Option (UInt32 × TableManager) :=
  if archetype.toNat ≥ m.archetypeCapacity.toNat then none
  else
    let entry := m.archetypes archetype.toNat
    match spawnChunk m entry with
    | none => none
    | some (chunk, m) =>
        let indices := chunkIndices entry chunk
        let entities := chunkEntities entry chunk
        let entityCount := entry.capacity - (m.chunks chunk.toNat).free
        let m := modifyChunk m chunk fun c => { c with free := c.free - 1 }
        match loadEntity m entities entityCount.toNat with
        | none => none
        | some e =>
            -- the entity is read as a free index, though nothing has stored one
            let index := e.toUInt16
            match storeIndex m indices index.toNat entityCount with
            | none => none
            | some m => some (entityBuild chunk index, m)

/-- `nu__table_manager_init` on blocks with the content `memory`. -/
def tableManagerInit (archetypeCapacity fieldCapacity chunkCapacity : UInt16)
    (memory : TableMemory) : TableManager :=
  { memory with
      archetypeCapacity, fieldCapacity, chunkCapacity, archetypeCount := 0, fieldCount := 0
      firstArchetype := 0, freeChunk := 0
      chunks := fun i =>
        -- the last chunk ends the free list
        if i + 1 = chunkCapacity.toNat then { memory.chunks i with next := chunkNone }
        else if i < chunkCapacity.toNat then { memory.chunks i with next := UInt16.ofNat (i + 1) }
        else memory.chunks i }

end Nucleus.Vm
