import Nucleus.Lib.Chain
import Nucleus.Vm.Table

/-!
# `Nucleus.Spec.Tables`: chunks and entities over a run

The laws that the table manager is meant to keep over every run of `nu__archetype_create` and
`nu__spawn`. `KeepsOwnership`: every chunk is on one chain, and an entity is in a chunk of its
archetype. `KeepsEntities`: inside a chunk, entities and rows are in bijection.

A run is legal (`LegalRun`) when every `nu__spawn` gets a handle that `nu__archetype_create`
returned and has a row or a chunk to take.
-/

set_option autoImplicit false

namespace Nucleus.Spec

open Nucleus.Lib
open Nucleus.Vm

/-! ### Runs -/

/-- A call of the table manager. -/
inductive TableOp where
  | create (name : List Char) (fields : Nat → FieldInfo) (fieldCount : UInt16)
  | spawn (archetype : UInt16)

/-- The state after a call. -/
def tableStep (m : TableManager) : TableOp → Option TableManager
  | .create name fields fieldCount => some (archetypeCreate m name fields fieldCount).2
  | .spawn archetype => (spawn m archetype).map Prod.snd

/-- The state after the calls `ops`. -/
def tableRun : TableManager → List TableOp → Option TableManager
  | m, [] => some m
  | m, op :: ops => (tableStep m op).bind (tableRun · ops)

/-- The entities of the calls `ops`, each with its archetype. -/
def spawnedBy : TableManager → List TableOp → List (UInt16 × UInt32)
  | _, [] => []
  | m, .create name fields fieldCount :: ops =>
      spawnedBy (archetypeCreate m name fields fieldCount).2 ops
  | m, .spawn archetype :: ops =>
      match spawn m archetype with
      | none => []
      | some (e, m) => (archetype, e) :: spawnedBy m ops

/-- The handles that `nu__archetype_create` returned so far. -/
def IsHandle (m : TableManager) (archetype : UInt16) : Prop :=
  0 < archetype.toNat ∧ archetype.toNat ≤ m.archetypeCount.toNat

/-- The entry that `nu__archetype_create` made for a handle. -/
def entryOf (m : TableManager) (archetype : UInt16) : ArchetypeEntry :=
  m.archetypes (archetype.toNat - 1)

/-! ### Chains of chunks -/

/-- The chunk that follows on a chain. -/
def nextChunk (m : TableManager) (chunk : UInt16) : UInt16 := (m.chunks chunk.toNat).next

/-- The free list. -/
def FreeChunks (m : TableManager) (cs : List UInt16) : Prop :=
  IsChain chunkNone (nextChunk m) m.freeChunk cs

/-- The chain of an archetype. -/
def ChunksOf (m : TableManager) (archetype : UInt16) (cs : List UInt16) : Prop :=
  IsChain chunkNone (nextChunk m) (entryOf m archetype).firstChunk cs

/-- `nu__spawn` may be called: with a handle, and with a row or a chunk to take. -/
def SpawnAllowed (m : TableManager) (archetype : UInt16) : Prop :=
  IsHandle m archetype ∧
    ((∃ cs, ChunksOf m archetype cs ∧ ∃ k ∈ cs, (m.chunks k.toNat).free ≠ 0) ∨
      m.freeChunk ≠ chunkNone)

/-- Every `nu__spawn` of the run may be called. -/
def LegalRun : TableManager → List TableOp → Prop
  | _, [] => True
  | m, op :: ops =>
      (∀ archetype, op = .spawn archetype → SpawnAllowed m archetype) ∧
        ∀ m', tableStep m op = some m' → LegalRun m' ops

/-! ### Ownership of chunks -/

/-- Every chunk is on one chain: the free list or the chain of one archetype. All chains
end. -/
structure OwnsChunks (m : TableManager) : Prop where
  free : ∃ cs, FreeChunks m cs
  chains : ∀ a, IsHandle m a → ∃ cs, ChunksOf m a cs
  one : ∀ k : UInt16, k.toNat < m.chunkCapacity.toNat →
    ((∃ cs, FreeChunks m cs ∧ k ∈ cs) ∧ ∀ a, IsHandle m a → ∀ cs, ChunksOf m a cs → k ∉ cs) ∨
      ((∀ cs, FreeChunks m cs → k ∉ cs) ∧
        ∃! a, IsHandle m a ∧ ∃ cs, ChunksOf m a cs ∧ k ∈ cs)

/-- `nu__spawn` puts the entity in a chunk of its archetype. It takes a free chunk only when
the chunks of the archetype are full. -/
structure SpawnsInto (m : TableManager) (archetype : UInt16) (e : UInt32) (m' : TableManager) :
    Prop where
  chunk : ∃ cs, ChunksOf m' archetype cs ∧ entityChunk e ∈ cs
  full : m'.freeChunk ≠ m.freeChunk →
    ∀ cs, ChunksOf m archetype cs → ∀ k ∈ cs, (m.chunks k.toNat).free = 0

/-- A call of `nu__spawn` with the handle `a`. -/
def isSpawnOf (a : UInt16) : TableOp → Bool
  | .create _ _ _ => false
  | .spawn archetype => archetype = a

/-- `n` entities of an archetype with rows for `c` are in `⌈n / c⌉` chunks. -/
def UsesChunks (m : TableManager) (ops : List TableOp) : Prop :=
  ∀ a, IsHandle m a → ∀ cs, ChunksOf m a cs → 0 < (entryOf m a).capacity.toNat →
    cs.length = ((ops.countP (isSpawnOf a)) + (entryOf m a).capacity.toNat - 1) /
      (entryOf m a).capacity.toNat

/-- The ownership of chunks over a whole run. -/
def KeepsOwnership (m : TableManager) (ops : List TableOp) : Prop :=
  ∀ pre post, ops = pre ++ post → ∃ s, tableRun m pre = some s ∧ OwnsChunks s ∧
    UsesChunks s pre ∧
    ∀ a post', post = .spawn a :: post' → ∃ e s', spawn s a = some (e, s') ∧ SpawnsInto s a e s'

/-! ### Entities and rows -/

/-- The row of an entity. -/
def rowOf (m : TableManager) (archetype : UInt16) (e : UInt32) : Option UInt16 :=
  loadIndex m (chunkIndices (entryOf m archetype) (entityChunk e)) (entityIndex e).toNat

/-- An entity has an index and a row of its chunk, and the row belongs to it. -/
structure EntityStored (m : TableManager) (archetype : UInt16) (e : UInt32) : Prop where
  index : (entityIndex e).toNat < (entryOf m archetype).capacity.toNat
  row : ∃ row, rowOf m archetype e = some row ∧
    row.toNat < (entryOf m archetype).capacity.toNat -
      (m.chunks (entityChunk e).toNat).free.toNat ∧
    loadEntity m (chunkEntities (entryOf m archetype) (entityChunk e)) row.toNat = some e

/-- Two entities share no row and no index of a chunk. -/
def EntitiesApart (m : TableManager) (x y : UInt16 × UInt32) : Prop :=
  entityChunk x.2 = entityChunk y.2 →
    rowOf m x.1 x.2 ≠ rowOf m y.1 y.2 ∧ entityIndex x.2 ≠ entityIndex y.2

/-- Nothing is written outside the data of the chunk of `e`. -/
def WritesInChunk (m : TableManager) (e : UInt32) (m' : TableManager) : Prop :=
  ∀ j, j < (entityChunk e).toNat * chunkSize ∨ ((entityChunk e).toNat + 1) * chunkSize ≤ j →
    m'.data j = m.data j

/-- The bijection of entities and rows over a whole run. -/
def KeepsEntities (m : TableManager) (ops : List TableOp) : Prop :=
  ∀ pre post, ops = pre ++ post → ∃ s, tableRun m pre = some s ∧
    (∀ x ∈ spawnedBy m pre, EntityStored s x.1 x.2) ∧
    (spawnedBy m pre).Pairwise (EntitiesApart s) ∧
    ∀ a post', post = .spawn a :: post' → ∃ e s', spawn s a = some (e, s') ∧ WritesInChunk s e s'

end Nucleus.Spec
