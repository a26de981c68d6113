import Nucleus.Spec.Tables

/-!
# `Nucleus.Proofs.Tables`: runs of the table manager

As long as only archetypes are created, every chunk is on the free list and the laws of
`Nucleus.Spec.Tables` hold. `nu__spawn` breaks them at once: it never links the chunk it takes
to an archetype, and it never writes the array of free indices that it reads. So a run keeps
the laws exactly when it spawns nothing (`keepsOwnership_iff`, `keepsEntities_iff`).
-/

set_option autoImplicit false

namespace Nucleus.Proofs

open Nucleus.Lib
open Nucleus.Vm
open Nucleus.Spec

/-! ### Runs -/

/-- A run of two lists of operations is the run of the second one behind the first. -/
theorem tableRun_append (m : TableManager) (ops ops' : List TableOp) :
    tableRun m (ops ++ ops') = (tableRun m ops).bind (tableRun · ops') := by
  induction ops generalizing m with
  | nil => rfl
  | cons op ops ih =>
      simp only [List.cons_append, tableRun]
      cases tableStep m op with
      | none => rfl
      | some m' => exact ih m'

/-- The run after a part of a legal run is legal. -/
theorem LegalRun.of_append {m m' : TableManager} {ops ops' : List TableOp}
    (h : LegalRun m (ops ++ ops')) (hrun : tableRun m ops = some m') : LegalRun m' ops' := by
  induction ops generalizing m with
  | nil =>
      cases hrun
      exact h
  | cons op ops ih =>
      simp only [tableRun] at hrun
      cases hstep : tableStep m op with
      | none =>
          rw [hstep] at hrun
          cases hrun
      | some m₁ =>
          rw [hstep] at hrun
          exact ih (h.2 m₁ hstep) hrun

/-- A run that spawns has a first spawn. -/
theorem exists_first_spawn {ops : List TableOp} {a : UInt16} (h : .spawn a ∈ ops) :
    ∃ pre b post, ops = pre ++ .spawn b :: post ∧ ∀ c, TableOp.spawn c ∉ pre := by
  induction ops with
  | nil => simp at h
  | cons op ops ih =>
      cases op with
      | spawn b => exact ⟨[], b, ops, rfl, by simp⟩
      | create name fields n =>
          obtain ⟨pre, b, post, rfl, hpre⟩ := ih (by simpa using h)
          exact ⟨.create name fields n :: pre, b, post, rfl, by simpa using hpre⟩

/-! ### Creating archetypes -/

/-- What inserting fields leaves as it is. -/
theorem foldl_insertField (fields : Nat → FieldInfo) (is : List Nat) (m : TableManager) :
    let m' := is.foldl (insertField fields) m
    m'.archetypes = m.archetypes ∧ m'.chunks = m.chunks ∧ m'.data = m.data ∧
      m'.archetypeCount = m.archetypeCount ∧ m'.archetypeCapacity = m.archetypeCapacity ∧
      m'.chunkCapacity = m.chunkCapacity ∧ m'.freeChunk = m.freeChunk := by
  induction is generalizing m with
  | nil => exact ⟨rfl, rfl, rfl, rfl, rfl, rfl, rfl⟩
  | cons i is ih => exact ih (insertField fields m i)

/-- The manager `m` has created archetypes and spawned nothing since it was `m₀`. -/
structure Unspawned (m₀ m : TableManager) : Prop where
  chunks : m.chunks = m₀.chunks
  data : m.data = m₀.data
  chunkCapacity : m.chunkCapacity = m₀.chunkCapacity
  freeChunk : m.freeChunk = m₀.freeChunk
  count : m.archetypeCount.toNat ≤ m.archetypeCapacity.toNat
  /-- No archetype has a chunk, and rows are at least six bytes long. -/
  entries : ∀ a < m.archetypeCount.toNat, (m.archetypes a).firstChunk = chunkNone ∧
    (m.archetypes a).capacity.toNat ≤ chunkSize / 6

/-- An entry of at least six bytes bounds how many of them a chunk holds. -/
theorem tableEntryCapacity_le (fields : Nat → FieldInfo) (n : UInt16) :
    (tableEntryCapacity fields n).toNat ≤ chunkSize / 6 := by
  unfold tableEntryCapacity
  rw [UInt16.toNat_ofNat']
  exact Nat.le_trans (Nat.mod_le _ _) (Nat.div_le_div_left (by omega) (by decide))

/-- Creating an archetype keeps the chunks as they are. -/
theorem Unspawned.archetypeCreate {m₀ m : TableManager} (h : Unspawned m₀ m) (name : List Char)
    (fields : Nat → FieldInfo) (n : UInt16) :
    Unspawned m₀ (archetypeCreate m name fields n).2 := by
  unfold Nucleus.Vm.archetypeCreate
  split
  · exact h
  · rename_i hcap
    obtain ⟨harch, hchunks, hdata, hcount, hacap, hccap, hfree⟩ :=
      foldl_insertField fields (List.range n.toNat) m
    have hlt : m.archetypeCount.toNat < m.archetypeCapacity.toNat := by omega
    have hsucc : (m.archetypeCount + 1).toNat = m.archetypeCount.toNat + 1 := by
      have := m.archetypeCapacity.toNat_lt
      rw [UInt16.toNat_add]
      exact Nat.mod_eq_of_lt (by simp only [UInt16.toNat_one]; omega)
    refine ⟨hchunks.trans h.chunks, hdata.trans h.data, hccap.trans h.chunkCapacity,
      hfree.trans h.freeChunk, ?_, fun a ha => ?_⟩
    · simp only [hcount, hacap, hsucc]
      omega
    · simp only [hcount, hsucc] at ha ⊢
      -- the new entry has no chunk yet
      by_cases heq : a = m.archetypeCount.toNat
      · rw [if_pos heq]
        exact ⟨rfl, tableEntryCapacity_le fields n⟩
      · rw [if_neg heq, harch]
        exact h.entries a (by omega)

/-- Creating archetypes never fails to return, and it spawns nothing. -/
theorem Unspawned.run {m₀ m : TableManager} (h : Unspawned m₀ m) {ops : List TableOp}
    (hops : ∀ a, TableOp.spawn a ∉ ops) : ∃ s, tableRun m ops = some s ∧ Unspawned m₀ s := by
  induction ops generalizing m with
  | nil => exact ⟨m, rfl, h⟩
  | cons op ops ih =>
      cases op with
      | spawn a => exact absurd (by simp) (hops a)
      | create name fields n =>
          exact ih (h.archetypeCreate name fields n) fun a ha => hops a (List.mem_cons_of_mem _ ha)

/-- A new manager has spawned nothing. -/
theorem unspawned_init (ac fc cc : UInt16) (memory : TableMemory) :
    Unspawned (tableManagerInit ac fc cc memory) (tableManagerInit ac fc cc memory) :=
  ⟨rfl, rfl, rfl, rfl, Nat.zero_le _, fun a ha => absurd ha (Nat.not_lt_zero a)⟩

/-- The free list of a new manager is all chunks in order. -/
theorem freeChunks_init {ac fc cc : UInt16} (memory : TableMemory) (hcc : 0 < cc.toNat) :
    FreeChunks (tableManagerInit ac fc cc memory) ((List.range cc.toNat).map UInt16.ofNat) := by
  have hof : ∀ {i : Nat}, i < cc.toNat → (UInt16.ofNat i).toNat = i := fun hi => by
    rw [UInt16.toNat_ofNat']
    exact Nat.mod_eq_of_lt (Nat.lt_trans hi cc.toNat_lt)
  have hlt : cc.toNat < 65536 := cc.toNat_lt
  -- the chain from the chunk `i` on
  have hchain : ∀ n i, i + n = cc.toNat → 0 < n →
      IsChain chunkNone (nextChunk (tableManagerInit ac fc cc memory)) (UInt16.ofNat i)
        ((List.range' i n).map UInt16.ofNat) := by
    intro n
    induction n with
    | zero => intro i _ hpos; omega
    | succ n ih =>
        intro i hi _
        have hne : UInt16.ofNat i ≠ chunkNone := by
          intro heq
          have := congrArg UInt16.toNat heq
          rw [hof (by omega)] at this
          have hnone : chunkNone.toNat = 65535 := rfl
          omega
        rw [List.range'_succ, List.map_cons]
        refine ⟨rfl, hne, ?_⟩
        have hnext : nextChunk (tableManagerInit ac fc cc memory) (UInt16.ofNat i) =
            if i + 1 = cc.toNat then chunkNone else UInt16.ofNat (i + 1) := by
          unfold nextChunk tableManagerInit
          simp only [hof (show i < cc.toNat by omega)]
          by_cases hlast : i + 1 = cc.toNat
          · simp only [if_pos hlast]
          · simp only [if_neg hlast, if_pos (show i < cc.toNat by omega)]
        rw [hnext]
        cases n with
        | zero =>
            rw [if_pos (by omega)]
            rfl
        | succ n =>
            rw [if_neg (by omega)]
            exact ih (i + 1) (by omega) (by omega)
  unfold FreeChunks
  rw [List.range_eq_range']
  exact hchain cc.toNat 0 (by omega) hcc

/-! ### The first spawn -/

/-- `nu__spawn` writes no archetype. -/
theorem spawn_archetypes {m m' : TableManager} {a : UInt16} {e : UInt32}
    (h : spawn m a = some (e, m')) : m'.archetypes = m.archetypes := by
  unfold spawn at h
  split at h
  · cases h
  · simp only at h
    split at h
    · cases h
    · rename_i chunk m₁ hchunk
      -- taking a chunk and storing into it leave the entries alone
      have harch : m₁.archetypes = m.archetypes := by
        unfold spawnChunk at hchunk
        split at hchunk
        · cases hchunk
        · split at hchunk
          · cases hchunk
            rfl
          · split at hchunk
            · cases hchunk
            · cases hchunk
              rfl
      split at h
      · cases h
      · split at h
        · cases h
        · rename_i m₂ hstore
          cases h
          unfold storeIndex at hstore
          simp only at hstore
          split at hstore
          · cases hstore
          · cases hstore
            exact harch

/-- While nothing was spawned, no archetype has a chunk: `nu__spawn` cannot put an entity in
one. -/
theorem Unspawned.not_spawnsInto {m₀ m m' : TableManager} {a : UInt16} {e : UInt32}
    (h : Unspawned m₀ m) (ha : IsHandle m a) (hspawn : spawn m a = some (e, m')) :
    ¬ SpawnsInto m a e m' := by
  rintro ⟨⟨cs, hcs, hmem⟩, -⟩
  have hfirst : (entryOf m' a).firstChunk = chunkNone := by
    unfold entryOf
    rw [spawn_archetypes hspawn]
    exact (h.entries _ (by have := ha.1; have := ha.2; omega)).1
  unfold ChunksOf at hcs
  rw [hfirst] at hcs
  cases cs with
  | nil => simp at hmem
  | cons c cs => exact hcs.2.1 rfl

/-- The chain of an archetype while nothing was spawned. -/
theorem Unspawned.chunksOf_iff {m₀ m : TableManager} {a : UInt16} (h : Unspawned m₀ m)
    (ha : IsHandle m a) (cs : List UInt16) : ChunksOf m a cs ↔ cs = [] := by
  have hfirst : (entryOf m a).firstChunk = chunkNone :=
    (h.entries _ (by have := ha.1; have := ha.2; omega)).1
  unfold ChunksOf
  rw [hfirst]
  cases cs with
  | nil => simp [Lib.IsChain]
  | cons c cs => simp [Lib.IsChain]

/-- While nothing was spawned, all chunks are on the free list. -/
theorem Unspawned.ownsChunks {ac fc cc : UInt16} {memory : TableMemory} {m : TableManager}
    (h : Unspawned (tableManagerInit ac fc cc memory) m) (hcc : 0 < cc.toNat) : OwnsChunks m := by
  have hfree : FreeChunks m ((List.range cc.toNat).map UInt16.ofNat) := by
    have hinit : FreeChunks (tableManagerInit ac fc cc memory) _ := freeChunks_init memory hcc
    unfold FreeChunks nextChunk at hinit ⊢
    rw [h.chunks, h.freeChunk]
    exact hinit
  have hcap : m.chunkCapacity = cc := h.chunkCapacity
  refine ⟨⟨_, hfree⟩, fun a ha => ⟨[], (h.chunksOf_iff ha []).mpr rfl⟩, fun k hk => Or.inl ⟨?_, ?_⟩⟩
  · refine ⟨_, hfree, List.mem_map.mpr ⟨k.toNat, ?_, UInt16.ofNat_toNat⟩⟩
    rw [List.mem_range, ← hcap]
    exact hk
  · intro a ha cs hcs
    rw [(h.chunksOf_iff ha cs).mp hcs]
    exact List.not_mem_nil

/-- A run that spawns nothing keeps the ownership of chunks. -/
theorem keepsOwnership_of_no_spawn {ac fc cc : UInt16} {memory : TableMemory}
    {ops : List TableOp} (hcc : 0 < cc.toNat) (hops : ∀ a, TableOp.spawn a ∉ ops) :
    KeepsOwnership (tableManagerInit ac fc cc memory) ops := by
  rintro pre post rfl
  have hpre : ∀ a, TableOp.spawn a ∉ pre := fun a ha => hops a (List.mem_append_left _ ha)
  obtain ⟨s, hrun, hs⟩ := (unspawned_init ac fc cc memory).run hpre
  refine ⟨s, hrun, hs.ownsChunks hcc, fun a ha cs hcs hpos => ?_, ?_⟩
  · have hnone : pre.countP (isSpawnOf a) = 0 := by
      rw [List.countP_eq_zero]
      rintro (⟨name, fields, n⟩ | b) hop
      · simp [isSpawnOf]
      · exact absurd hop (hpre b)
    rw [(hs.chunksOf_iff ha cs).mp hcs, hnone, Nat.zero_add, Nat.div_eq_of_lt (by omega)]
    rfl
  · rintro a post' rfl
    exact absurd (by simp) (hops a)

/-- A run breaks the ownership of chunks at its first spawn. -/
theorem not_keepsOwnership_of_spawn {ac fc cc : UInt16} {memory : TableMemory}
    {ops : List TableOp} (hlegal : LegalRun (tableManagerInit ac fc cc memory) ops) {a : UInt16}
    (ha : .spawn a ∈ ops) : ¬ KeepsOwnership (tableManagerInit ac fc cc memory) ops := by
  intro h
  obtain ⟨pre, b, post, rfl, hpre⟩ := exists_first_spawn ha
  obtain ⟨s, hrun, hs⟩ := (unspawned_init ac fc cc memory).run hpre
  obtain ⟨s', hrun', -, -, hspawn⟩ := h pre _ rfl
  obtain rfl : s = s' := Option.some.inj (hrun.symm.trans hrun')
  obtain ⟨e, s', hstep, hinto⟩ := hspawn b post rfl
  have hallowed := (LegalRun.of_append hlegal hrun).1 b rfl
  exact hs.not_spawnsInto hallowed.1 hstep hinto

/-- A legal run keeps the ownership of chunks exactly when it spawns nothing. -/
theorem keepsOwnership_iff {ac fc cc : UInt16} {memory : TableMemory} {ops : List TableOp}
    (hcc : 0 < cc.toNat) (hlegal : LegalRun (tableManagerInit ac fc cc memory) ops) :
    KeepsOwnership (tableManagerInit ac fc cc memory) ops ↔ ∀ a, TableOp.spawn a ∉ ops :=
  ⟨fun h _ ha => not_keepsOwnership_of_spawn hlegal ha h, keepsOwnership_of_no_spawn hcc⟩

/-- The blocks of the manager with zeroed entries and data that is all ones. -/
def filledMemory : TableMemory :=
  { archetypes := fun _ => ⟨0, 0, 0, 0, 0, 0, fun _ => 0⟩
    fields := fun _ => ⟨.unknown, 0, fun _ => 0⟩
    chunks := fun _ => ⟨0, 0⟩
    data := fun _ => 0xff }

/-- A run that creates one archetype without fields and spawns an entity of it. -/
def createAndSpawn : List TableOp := [.create [] (fun _ => ⟨[], .unknown, 0⟩) 0, .spawn 1]

/-- The run that creates an archetype and spawns an entity is legal. -/
theorem legalRun_createAndSpawn (memory : TableMemory) :
    LegalRun (tableManagerInit 2 1 2 memory) createAndSpawn := by
  refine ⟨fun a ha => TableOp.noConfusion ha, fun m hm => ⟨fun a ha => ?_, fun _ _ => trivial⟩⟩
  cases hm
  cases ha
  exact ⟨⟨by decide, Nat.le_refl 1⟩, Or.inr (show (0 : UInt16) ≠ chunkNone by decide)⟩

/-- The run `createAndSpawn` loses the chunk that it takes. -/
theorem createAndSpawn_loses_chunk :
    LegalRun (tableManagerInit 2 1 2 filledMemory) createAndSpawn ∧
      ¬ KeepsOwnership (tableManagerInit 2 1 2 filledMemory) createAndSpawn :=
  ⟨legalRun_createAndSpawn _,
    not_keepsOwnership_of_spawn (a := 1) (legalRun_createAndSpawn _) (by simp [createAndSpawn])⟩

theorem keepsOwnership_iff_createAndSpawn :
    KeepsOwnership (tableManagerInit 2 1 2 filledMemory) createAndSpawn ↔
      ∀ a, TableOp.spawn a ∉ createAndSpawn :=
  keepsOwnership_iff (by decide) (legalRun_createAndSpawn _)

/-! ### Entities -/

/-- The entities of two runs, one behind the other. -/
theorem spawnedBy_append {m s : TableManager} {ops : List TableOp} (ops' : List TableOp)
    (h : tableRun m ops = some s) :
    spawnedBy m (ops ++ ops') = spawnedBy m ops ++ spawnedBy s ops' := by
  induction ops generalizing m with
  | nil =>
      cases h
      rfl
  | cons op ops ih =>
      cases op with
      | create name fields n => exact ih h
      | spawn a =>
          simp only [tableRun, tableStep] at h
          simp only [List.cons_append, spawnedBy]
          cases hspawn : spawn m a with
          | none =>
              rw [hspawn] at h
              cases h
          | some q =>
              rw [hspawn] at h
              simp only [List.cons_append, ih h]

/-- A run without a spawn spawns nothing. -/
theorem spawnedBy_eq_nil {m : TableManager} {ops : List TableOp}
    (h : ∀ a, TableOp.spawn a ∉ ops) : spawnedBy m ops = [] := by
  induction ops generalizing m with
  | nil => rfl
  | cons op ops ih =>
      cases op with
      | spawn a => exact absurd (by simp) (h a)
      | create name fields n => exact ih fun a ha => h a (List.mem_cons_of_mem _ ha)

/-- The index of an entity is the one it was built with, here the last one. -/
theorem entityIndex_entityBuild_max (chunk : UInt16) :
    entityIndex (entityBuild chunk 0xffff) = 0xffff := by
  have hmask : ∀ x : UInt32, (x ||| 0xffff) &&& 0xffff = 0xffff := by
    intro x
    rw [← UInt32.toBitVec_inj]
    ext i hi
    simp only [UInt32.toBitVec_and, UInt32.toBitVec_or, BitVec.getElem_and, BitVec.getElem_or]
    cases x.toBitVec[i] <;> simp
  unfold entityIndex entityBuild
  rw [UInt32.add_sub_cancel, show (0xffff : UInt16).toUInt32 = 0xffff from rfl, hmask]
  rfl

/-- In data that is all ones `nu__spawn` reads the last index as a free one. -/
theorem entityIndex_of_filled {m m' : TableManager} {a : UInt16} {e : UInt32}
    (hdata : m.data = fun _ => 0xff) (h : spawn m a = some (e, m')) : entityIndex e = 0xffff := by
  unfold spawn at h
  split at h
  · cases h
  · simp only at h
    split at h
    · cases h
    · rename_i chunk m₁ hchunk
      have hdata₁ : m₁.data = fun _ => 0xff := by
        unfold spawnChunk at hchunk
        split at hchunk
        · cases hchunk
        · split at hchunk
          · cases hchunk
            exact hdata
          · split at hchunk
            · cases hchunk
            · cases hchunk
              exact hdata
      split at h
      · cases h
      · rename_i v hload
        -- the index comes from memory that nothing has written to
        have hv : v = 0xffffffff := by
          unfold loadEntity modifyChunk at hload
          simp only [hdata₁] at hload
          split at hload
          · cases hload
          · cases hload
            rfl
        split at h
        · cases h
        · cases h
          rw [hv]
          exact entityIndex_entityBuild_max chunk

/-- A run breaks the bijection at its first spawn, when the data is all ones before. -/
theorem not_keepsEntities_of_spawn {ac fc cc : UInt16} {ops : List TableOp}
    (hlegal : LegalRun (tableManagerInit ac fc cc filledMemory) ops) {a : UInt16}
    (ha : .spawn a ∈ ops) : ¬ KeepsEntities (tableManagerInit ac fc cc filledMemory) ops := by
  intro h
  obtain ⟨pre, b, post, rfl, hpre⟩ := exists_first_spawn ha
  obtain ⟨s, hrun, hs⟩ := (unspawned_init ac fc cc filledMemory).run hpre
  have hhandle := ((LegalRun.of_append hlegal hrun).1 b rfl).1
  obtain ⟨s₁, hrun₁, -, -, hspawn⟩ := h pre _ rfl
  obtain rfl : s = s₁ := Option.some.inj (hrun.symm.trans hrun₁)
  obtain ⟨e, s', hstep, -⟩ := hspawn b post rfl
  -- the state behind the spawn
  obtain ⟨s₂, hrun₂, hstored, -⟩ := h (pre ++ [.spawn b]) post (by simp)
  have hs₂ : s₂ = s' := by
    rw [tableRun_append, hrun] at hrun₂
    simp only [Option.bind_some, tableRun, tableStep, hstep, Option.map_some, Option.some.injEq]
      at hrun₂
    exact hrun₂.symm
  have hmem : (b, e) ∈ spawnedBy (tableManagerInit ac fc cc filledMemory) (pre ++ [.spawn b]) := by
    rw [spawnedBy_append _ hrun]
    simp [spawnedBy, hstep]
  have hindex := (hstored _ hmem).index
  have hentry := (hs.entries (b.toNat - 1) (by have := hhandle.1; have := hhandle.2; omega)).2
  rw [entityIndex_of_filled hs.data hstep, hs₂, entryOf, spawn_archetypes hstep] at hindex
  exact absurd (Nat.lt_of_lt_of_le hindex hentry) (by decide)

/-- A run without a spawn keeps its entities, as there are none. -/
theorem keepsEntities_of_no_spawn {ac fc cc : UInt16} {memory : TableMemory}
    {ops : List TableOp} (hops : ∀ a, TableOp.spawn a ∉ ops) :
    KeepsEntities (tableManagerInit ac fc cc memory) ops := by
  rintro pre post rfl
  have hpre : ∀ a, TableOp.spawn a ∉ pre := fun a ha => hops a (List.mem_append_left _ ha)
  obtain ⟨s, hrun, -⟩ := (unspawned_init ac fc cc memory).run hpre
  refine ⟨s, hrun, ?_, ?_, ?_⟩
  · simp [spawnedBy_eq_nil hpre]
  · simp [spawnedBy_eq_nil hpre]
  · rintro a post' rfl
    exact absurd (by simp) (hops a)

/-- A run keeps the bijection whatever the memory held before exactly when it spawns
nothing. -/
theorem keepsEntities_iff {ac fc cc : UInt16} {ops : List TableOp}
    (hlegal : ∀ memory, LegalRun (tableManagerInit ac fc cc memory) ops) :
    (∀ memory, KeepsEntities (tableManagerInit ac fc cc memory) ops) ↔
      ∀ a, TableOp.spawn a ∉ ops :=
  ⟨fun h _ ha => not_keepsEntities_of_spawn (hlegal _) ha (h _),
    fun h _ => keepsEntities_of_no_spawn h⟩

/-- The run `createAndSpawn` gives an entity with an index that no row has. -/
theorem createAndSpawn_loses_entity :
    (∀ memory, LegalRun (tableManagerInit 2 1 2 memory) createAndSpawn) ∧
      ¬ KeepsEntities (tableManagerInit 2 1 2 filledMemory) createAndSpawn :=
  ⟨legalRun_createAndSpawn,
    not_keepsEntities_of_spawn (a := 1) (legalRun_createAndSpawn _) (by simp [createAndSpawn])⟩

theorem keepsEntities_iff_createAndSpawn :
    (∀ memory, KeepsEntities (tableManagerInit 2 1 2 memory) createAndSpawn) ↔
      ∀ a, TableOp.spawn a ∉ createAndSpawn :=
  keepsEntities_iff legalRun_createAndSpawn

end Nucleus.Proofs
