import Nucleus.Lib.Chain
import Nucleus.Proofs.Tables

/-!
# `Nucleus.Proofs.Registry`: the archetypes of a table manager

`CreateRun m cs m'` is a sequence of calls of `nu__archetype_create` from `m` to `m'`, and `cs`
are the ones that succeeded, in order. `IsRegistry` says what the manager holds after the
creations `cs`: one entry each, chained the last one first, with consecutive ranges of one pool
of fields.

`vmCreateArchetype_cases` are the two cases of one call, and `createRun_isRegistry` is the
invariant of a run.
-/

set_option autoImplicit false

namespace Nucleus.Proofs

open Nucleus.Lib
open Nucleus.Vm

/-! ### The specification -/

/-- The arguments of a call of `nu__archetype_create`. -/
structure CreateCall where
  name : List Char
  fields : Nat → FieldInfo
  fieldCount : UInt16

/-- Calls of `nu__archetype_create` from `m` on, with those that succeeded. -/
inductive CreateRun (m : TableManager) : List CreateCall → TableManager → Prop where
  | refl : CreateRun m [] m
  | ok {cs : List CreateCall} {m' : TableManager} {handle : UInt16} {m'' : TableManager}
      (c : CreateCall) : CreateRun m cs m' →
      vmCreateArchetype m' c.name c.fields c.fieldCount = (none, handle, m'') →
      CreateRun m (cs ++ [c]) m''
  | error {cs : List CreateCall} {m' : TableManager} {e : Vm.Error} {handle : UInt16}
      {m'' : TableManager} (c : CreateCall) : CreateRun m cs m' →
      vmCreateArchetype m' c.name c.fields c.fieldCount = (some e, handle, m'') →
      CreateRun m cs m''

/-- The first 30 characters of a name. -/
def identText (name : List Char) : List UInt8 :=
  ((name.takeWhile (· ≠ '\x00')).take identMax).map fun c => UInt8.ofNat c.toNat

/-- The number of fields of the creations `cs`. -/
def fieldsOf (cs : List CreateCall) : Nat := (cs.map fun c => c.fieldCount.toNat).sum

/-- The handles of `n` archetypes, in the order of their creation. -/
def handlesOf (n : Nat) : List UInt16 := (List.range n).map fun i => UInt16.ofNat (i + 1)

/-- The link from an archetype to the one created before it. -/
def nextArchetype (m : TableManager) (handle : UInt16) : UInt16 :=
  (m.archetypes (handle.toNat - 1)).next

/-- The field entry of `m` at `slot` holds the field it was created from. -/
structure HoldsField (entry : FieldEntry) (info : FieldInfo) : Prop where
  primitive : entry.primitive = info.primitive
  archetype : entry.archetype = info.archetype
  name : identStr entry.name = identText info.name

/-- The manager holds the archetypes of the creations `cs`. -/
structure IsRegistry (m : TableManager) (cs : List CreateCall) : Prop where
  archetypes_le : m.archetypeCount ≤ m.archetypeCapacity
  fields_le : m.fieldCount ≤ m.fieldCapacity
  count : m.archetypeCount.toNat = cs.length
  /-- `next` visits the handles in the reverse order of their creation. -/
  chain : IsChain 0 (nextArchetype m) m.firstArchetype (handlesOf cs.length).reverse
  /-- The ranges of fields follow each other, and the last one ends at the field count. -/
  range : ∀ i c, cs[i]? = some c →
    (m.archetypes i).firstFieldOffset.toNat = fieldsOf (cs.take i) ∧
      (m.archetypes i).fieldCount = c.fieldCount
  cover : m.fieldCount.toNat = fieldsOf cs
  fields : ∀ i c, cs[i]? = some c → ∀ j < c.fieldCount.toNat,
    HoldsField (m.fields ((m.archetypes i).firstFieldOffset.toNat + j)) (c.fields j)
  names : ∀ i c, cs[i]? = some c → identStr (m.archetypes i).name = identText c.name

/-! ### Names -/

/-- The length that is measured is that of the text, up to the bound. -/
theorem strnlen_eq (s : List Char) (n : Nat) :
    strnlen s n = ((s.takeWhile (· ≠ '\x00')).take n).length := by
  induction n generalizing s with
  | zero => simp [strnlen]
  | succ n ih =>
      cases s with
      | nil => simp [strnlen, charAt]
      | cons c s =>
          by_cases hc : c = '\x00'
          · simp [strnlen, charAt, hc]
          · have htail := ih s
            simp only [strnlen, charAt, List.getD_cons_zero, hc, if_false, List.tail_cons, htail]
            simp [hc]

/-- The length that is measured is at most the bound. -/
theorem strnlen_le (s : List Char) (n : Nat) : strnlen s n ≤ n := by
  rw [strnlen_eq, List.length_take]
  exact Nat.min_le_left _ _

/-- An identifier that was set holds the first 30 characters of its string. -/
theorem identStr_identSetStr (ident : Ident) (s : List Char) :
    identStr (identSetStr ident s) = identText s := by
  have hle : strnlen s identMax ≤ 30 := strnlen_le s identMax
  have hlen : identLen (identSetStr ident s) = strnlen s identMax := by
    unfold identLen identSetStr memcpy identSetLen memset
    -- the last byte is behind the characters and behind the zeros
    have hcopy : ¬ identMax + 1 < strnlen s identMax := by
      show ¬ 30 + 1 < strnlen s identMax
      omega
    have hzero : ¬ (strnlen s identMax ≤ identMax + 1 ∧
        identMax + 1 < strnlen s identMax + (identMax - strnlen s identMax)) := by
      show ¬ (strnlen s identMax ≤ 30 + 1 ∧
        30 + 1 < strnlen s identMax + (30 - strnlen s identMax))
      omega
    simp only [hcopy, hzero, if_false, if_true]
    rw [UInt8.toNat_ofNat']
    exact Nat.mod_eq_of_lt (Nat.lt_of_le_of_lt hle (by decide))
  have htext : ∀ i < strnlen s identMax,
      ((s.takeWhile (· ≠ '\x00')).take identMax)[i]? = some (charAt s i) := by
    intro i hi
    rw [strnlen_eq] at hi
    have hpre : (s.takeWhile (· ≠ '\x00')).take identMax <+: s :=
      (List.take_prefix _ _).trans (List.takeWhile_prefix _)
    obtain ⟨rest, hrest⟩ := hpre
    have hget : s[i]? = ((s.takeWhile (· ≠ '\x00')).take identMax)[i]? := by
      conv_lhs => rw [← hrest]
      rw [List.getElem?_append_left hi]
    rw [← hget, charAt, List.getD_eq_getElem?_getD, hget, List.getElem?_eq_getElem hi]
    rfl
  unfold identStr identText
  rw [hlen]
  refine List.ext_getElem? fun i => ?_
  simp only [List.getElem?_map]
  by_cases hi : i < strnlen s identMax
  · rw [htext i hi, List.getElem?_range hi]
    simp [identSetStr, memcpy, hi]
  · have hnone : ((s.takeWhile (· ≠ '\x00')).take identMax)[i]? = none := by
      rw [List.getElem?_eq_none_iff, ← strnlen_eq]
      omega
    rw [hnone, List.getElem?_eq_none_iff.mpr (by simpa using Nat.not_lt.mp hi)]
    rfl

/-! ### One call -/

/-- What a successful creation does: one entry at the end of the table, and its fields at the
end of the pool. -/
structure Created (m : TableManager) (c : CreateCall) (handle : UInt16) (m' : TableManager) :
    Prop where
  archetype_room : m.archetypeCount.toNat + 1 ≤ m.archetypeCapacity.toNat
  field_room : m.fieldCount.toNat + c.fieldCount.toNat ≤ m.fieldCapacity.toNat
  handle_eq : handle = m.archetypeCount + 1
  archetypeCapacity : m'.archetypeCapacity = m.archetypeCapacity
  fieldCapacity : m'.fieldCapacity = m.fieldCapacity
  archetypeCount : m'.archetypeCount.toNat = m.archetypeCount.toNat + 1
  fieldCount : m'.fieldCount.toNat = m.fieldCount.toNat + c.fieldCount.toNat
  firstArchetype : m'.firstArchetype = handle
  archetypes : ∀ i ≠ m.archetypeCount.toNat, m'.archetypes i = m.archetypes i
  entry_next : (m'.archetypes m.archetypeCount.toNat).next = m.firstArchetype
  entry_range : (m'.archetypes m.archetypeCount.toNat).firstFieldOffset.toNat =
      m.fieldCount.toNat ∧
    (m'.archetypes m.archetypeCount.toNat).fieldCount = c.fieldCount
  entry_name : identStr (m'.archetypes m.archetypeCount.toNat).name = identText c.name
  fields : ∀ j < m.fieldCount.toNat, m'.fields j = m.fields j
  new_fields : ∀ j < c.fieldCount.toNat,
    HoldsField (m'.fields (m.fieldCount.toNat + j)) (c.fields j)

/-- A counter below its bound does not wrap. -/
theorem toNat_succ {a b : UInt16} (h : a.toNat + 1 ≤ b.toNat) : (a + 1).toNat = a.toNat + 1 := by
  have hb : b.toNat < 65536 := b.toNat_lt
  rw [UInt16.toNat_add]
  exact Nat.mod_eq_of_lt (by simp only [UInt16.toNat_one]; omega)

/-- The loop that inserts the fields: each turn writes the next entry of the pool. -/
theorem insertFields_spec (fields : Nat → FieldInfo) (m : TableManager) (n : Nat)
    (hfit : m.fieldCount.toNat + n ≤ m.fieldCapacity.toNat) :
    let m' := (List.range n).foldl (insertField fields) m
    m'.fieldCount.toNat = m.fieldCount.toNat + n ∧
      m'.firstArchetype = m.firstArchetype ∧ m'.fieldCapacity = m.fieldCapacity ∧
      (∀ j < m.fieldCount.toNat, m'.fields j = m.fields j) ∧
      ∀ j < n, HoldsField (m'.fields (m.fieldCount.toNat + j)) (fields j) := by
  induction n with
  | zero => exact ⟨rfl, rfl, rfl, fun _ _ => rfl, fun j hj => absurd hj (Nat.not_lt_zero j)⟩
  | succ n ih =>
      obtain ⟨hcount, hfirst, hcap, hold, hnew⟩ := ih (by omega)
      simp only [List.range_succ, List.foldl_append, List.foldl_cons, List.foldl_nil]
      generalize (List.range n).foldl (insertField fields) m = m' at hcount hfirst hcap hold hnew ⊢
      have hsucc : (m'.fieldCount + 1).toNat = m'.fieldCount.toNat + 1 :=
        toNat_succ (b := m.fieldCapacity) (by omega)
      refine ⟨by rw [insertField, hsucc]; omega, hfirst, hcap, fun j hj => ?_, fun j hj => ?_⟩
      · -- the entries before the pool's old end are not touched
        rw [← hold j hj, insertField]
        exact if_neg (by omega)
      · rcases Nat.lt_succ_iff_lt_or_eq.mp hj with hlt | rfl
        · have hne : m.fieldCount.toNat + j ≠ m'.fieldCount.toNat := by omega
          rw [insertField]
          simp only [hne, if_false]
          exact hnew j hlt
        · -- the last of the fields is stored at the end of the pool
          have heq : m.fieldCount.toNat + j = m'.fieldCount.toNat := hcount.symm
          rw [insertField]
          simp only [heq, if_true]
          exact ⟨rfl, rfl, identStr_identSetStr _ _⟩

/-- The two cases of a call: a creation, or an error with the handle 0 and nothing changed. -/
theorem vmCreateArchetype_cases (m : TableManager) (c : CreateCall) :
    (∃ handle m', vmCreateArchetype m c.name c.fields c.fieldCount = (none, handle, m') ∧
        Created m c handle m') ∨
      vmCreateArchetype m c.name c.fields c.fieldCount = (some .outOfMemory, 0, m) := by
  unfold vmCreateArchetype archetypeCreate
  by_cases hfull : m.archetypeCount.toNat + 1 > m.archetypeCapacity.toNat ∨
      m.fieldCount.toNat + c.fieldCount.toNat > m.fieldCapacity.toNat
  · simp only [hfull, if_true]
    exact Or.inr trivial
  · simp only [hfull, if_false]
    -- both pools have room, so no counter wraps
    obtain ⟨harch, hfield⟩ := not_or.mp hfull
    have harch := Nat.not_lt.mp harch
    have hfield := Nat.not_lt.mp hfield
    obtain ⟨hentries, -, -, hcount, hcap, -, -⟩ :=
      foldl_insertField c.fields (List.range c.fieldCount.toNat) m
    obtain ⟨hfc, hfirst, hfcap, hold, hnew⟩ :=
      insertFields_spec c.fields m c.fieldCount.toNat hfield
    refine Or.inl ⟨_, _, rfl, ?_⟩
    constructor
    case archetype_room => exact harch
    case field_room => exact hfield
    case handle_eq => rw [hcount]
    case archetypeCapacity => exact hcap
    case fieldCapacity => exact hfcap
    case archetypeCount => simp only [hcount, toNat_succ harch]
    case fieldCount => exact hfc
    case firstArchetype => rfl
    case archetypes =>
      intro i hi
      simp only [hcount, hi, if_false, hentries]
    case entry_next => simp only [hcount, if_true, hfirst]
    case entry_range =>
      simp only [hcount, if_true, UInt16.toNat_toUInt32, and_self]
    case entry_name =>
      simp only [hcount, if_true]
      exact identStr_identSetStr _ _
    case fields => exact hold
    case new_fields => exact hnew

/-! ### The invariant -/

/-- The newest handle comes first in the chain. -/
theorem handlesOf_succ (n : Nat) :
    (handlesOf (n + 1)).reverse = UInt16.ofNat (n + 1) :: (handlesOf n).reverse := by
  simp [handlesOf, List.range_succ]

/-- The pool grows by the fields of the creation. -/
theorem fieldsOf_snoc (cs : List CreateCall) (c : CreateCall) :
    fieldsOf (cs ++ [c]) = fieldsOf cs + c.fieldCount.toNat := by
  simp [fieldsOf]

/-- The fields of a creation are among the fields of all. -/
theorem fieldsOf_take_add_le {cs : List CreateCall} {i : Nat} {c : CreateCall}
    (hi : cs[i]? = some c) : fieldsOf (cs.take i) + c.fieldCount.toNat ≤ fieldsOf cs := by
  obtain ⟨hlt, hget⟩ := List.getElem?_eq_some_iff.mp hi
  have hpre : cs.take i ++ [c] <+: cs := by
    rw [← hget, List.take_append_getElem hlt]
    exact List.take_prefix _ _
  obtain ⟨rest, hrest⟩ := hpre
  rw [← fieldsOf_snoc]
  conv_rhs => rw [← hrest]
  simp only [fieldsOf, List.map_append, List.sum_append]
  omega

/-- A fresh manager holds no archetype. -/
theorem isRegistry_init (ac fc cc : UInt16) (memory : TableMemory) :
    IsRegistry (tableManagerInit ac fc cc memory) [] where
  archetypes_le := UInt16.le_iff_toNat_le.mpr (Nat.zero_le _)
  fields_le := UInt16.le_iff_toNat_le.mpr (Nat.zero_le _)
  count := rfl
  chain := rfl
  range := by simp
  cover := rfl
  fields := by simp
  names := by simp

/-- What stands in a list with one more element behind it. -/
theorem of_getElem?_snoc {cs : List CreateCall} {c c' : CreateCall} {i : Nat}
    (hi : (cs ++ [c])[i]? = some c') : cs[i]? = some c' ∨ (i = cs.length ∧ c' = c) := by
  rcases Nat.lt_trichotomy i cs.length with hlt | rfl | hgt
  · rw [List.getElem?_append_left hlt] at hi
    exact Or.inl hi
  · rw [List.getElem?_append_right (Nat.le_refl _), Nat.sub_self] at hi
    exact Or.inr ⟨rfl, (Option.some.inj hi).symm⟩
  · have hnone : (cs ++ [c])[i]? = none := by
      rw [List.getElem?_eq_none_iff, List.length_append, List.length_singleton]
      omega
    rw [hnone] at hi
    cases hi

section
variable {m m' : TableManager} {cs : List CreateCall} {c : CreateCall} {handle : UInt16}

/-- The handle of a creation is the number of the archetypes with the new one. -/
theorem IsRegistry.handle_create (h : IsRegistry m cs) (hc : Created m c handle m') :
    handle = UInt16.ofNat (cs.length + 1) ∧ handle.toNat = cs.length + 1 := by
  have hcap : m.archetypeCapacity.toNat < 65536 := m.archetypeCapacity.toNat_lt
  have hroom := hc.archetype_room
  rw [h.count] at hroom
  have hhandle : handle = UInt16.ofNat (cs.length + 1) := by
    rw [hc.handle_eq, ← h.count, UInt16.ofNat_add, UInt16.ofNat_toNat]
    rfl
  refine ⟨hhandle, ?_⟩
  rw [hhandle]
  exact UInt16.toNat_ofNat_of_lt' (by show cs.length + 1 < 65536; omega)

/-- A creation puts its archetype in front of the chain. -/
theorem IsRegistry.chain_create (h : IsRegistry m cs) (hc : Created m c handle m') :
    IsChain 0 (nextArchetype m') m'.firstArchetype (handlesOf (cs ++ [c]).length).reverse := by
  obtain ⟨hhandle, hval⟩ := h.handle_create hc
  have hbound := handle.toNat_lt
  rw [List.length_append, List.length_singleton, handlesOf_succ]
  refine ⟨hc.firstArchetype.trans hhandle, ?_, ?_⟩
  · rw [hc.firstArchetype]
    intro hz
    rw [hz] at hval
    exact absurd hval (by simp)
  · -- the new archetype links to the one that was the first, and the others link as before
    have hnext : nextArchetype m' (UInt16.ofNat (cs.length + 1)) = m.firstArchetype := by
      rw [nextArchetype, ← hhandle, hval, ← hc.entry_next, h.count]
      rfl
    rw [hnext]
    obtain ⟨hseg, hnull⟩ := isChain_iff_seg.mp h.chain
    refine isChain_iff_seg.mpr ⟨hseg.congr fun x hx => ?_, hnull⟩
    rw [List.mem_reverse, handlesOf, List.mem_map] at hx
    obtain ⟨i, hi, rfl⟩ := hx
    rw [List.mem_range] at hi
    have hidx : (UInt16.ofNat (i + 1)).toNat - 1 = i := by
      rw [UInt16.toNat_ofNat_of_lt' (by show i + 1 < 65536; omega)]
      rfl
    rw [nextArchetype, nextArchetype, hidx, hc.archetypes i (by rw [h.count]; omega)]

/-- A creation adds its archetype to the registry. -/
theorem IsRegistry.create (h : IsRegistry m cs) (hc : Created m c handle m') :
    IsRegistry m' (cs ++ [c]) := by
  -- an earlier creation has its entry below the new one
  have hold : ∀ {i c'}, cs[i]? = some c' → i < cs.length ∧ m'.archetypes i = m.archetypes i := by
    intro i c' hi
    have hlt := (List.getElem?_eq_some_iff.mp hi).1
    exact ⟨hlt, hc.archetypes i (by rw [h.count]; exact Nat.ne_of_lt hlt)⟩
  refine ⟨?_, ?_, ?_, h.chain_create hc, fun i c' hi => ?_, ?_, fun i c' hi j hj => ?_,
    fun i c' hi => ?_⟩
  · rw [UInt16.le_iff_toNat_le, hc.archetypeCapacity, hc.archetypeCount]
    exact hc.archetype_room
  · rw [UInt16.le_iff_toNat_le, hc.fieldCapacity, hc.fieldCount]
    exact hc.field_room
  · rw [hc.archetypeCount, h.count, List.length_append, List.length_singleton]
  · rcases of_getElem?_snoc hi with hi | ⟨rfl, rfl⟩
    · obtain ⟨hlt, heq⟩ := hold hi
      rw [heq, List.take_append_of_le_length (Nat.le_of_lt hlt)]
      exact h.range i c' hi
    · have hentry := hc.entry_range
      rw [h.count, h.cover] at hentry
      rw [List.take_append_of_le_length (Nat.le_refl _), List.take_length]
      exact hentry
  · rw [hc.fieldCount, fieldsOf_snoc, h.cover]
  · rcases of_getElem?_snoc hi with hi | ⟨rfl, rfl⟩
    · obtain ⟨hlt, heq⟩ := hold hi
      have hrange := h.range i c' hi
      -- the range of an earlier archetype ends where the pool ended
      have hbound : fieldsOf (cs.take i) + c'.fieldCount.toNat ≤ m.fieldCount.toNat := by
        rw [h.cover]
        exact fieldsOf_take_add_le hi
      rw [heq, hc.fields _ (by rw [hrange.1]; omega)]
      exact h.fields i c' hi j hj
    · have hentry := hc.entry_range.1
      rw [h.count] at hentry
      rw [hentry]
      exact hc.new_fields j hj
  · rcases of_getElem?_snoc hi with hi | ⟨rfl, rfl⟩
    · rw [(hold hi).2]
      exact h.names i c' hi
    · have hname := hc.entry_name
      rw [h.count] at hname
      exact hname

end

/-! ### Runs -/

/-- Every run from a registry ends in one, with the creations behind the earlier ones, whose
entries and fields it leaves as they are. -/
theorem CreateRun.isRegistry {m m' : TableManager} {cs₀ cs : List CreateCall}
    (h : IsRegistry m cs₀) (hrun : CreateRun m cs m') :
    IsRegistry m' (cs₀ ++ cs) ∧
      (∀ i < m.archetypeCount.toNat, m'.archetypes i = m.archetypes i) ∧
      ∀ j < m.fieldCount.toNat, m'.fields j = m.fields j := by
  induction hrun with
  | refl =>
      rw [List.append_nil]
      exact ⟨h, fun _ _ => rfl, fun _ _ => rfl⟩
  | @ok cs m' handle m'' c _ hcall ih =>
      obtain ⟨hreg, harch, hfields⟩ := ih
      rcases vmCreateArchetype_cases m' c with ⟨handle', m₁, hok, hcreated⟩ | herror
      · rw [hok] at hcall
        cases hcall
        rw [← List.append_assoc]
        -- the tables only grew since `m`
        have hcount : m.archetypeCount.toNat ≤ m'.archetypeCount.toNat := by
          rw [h.count, hreg.count, List.length_append]
          omega
        have hcover : m.fieldCount.toNat ≤ m'.fieldCount.toNat := by
          rw [h.cover, hreg.cover, fieldsOf, fieldsOf, List.map_append, List.sum_append]
          omega
        refine ⟨hreg.create hcreated, fun i hi => ?_, fun j hj => ?_⟩
        · rw [hcreated.archetypes i (by omega), harch i hi]
        · rw [hcreated.fields j (by omega), hfields j hj]
      · rw [herror] at hcall
        cases hcall
  | @error cs m' e handle m'' c _ hcall ih =>
      rcases vmCreateArchetype_cases m' c with ⟨handle', m₁, hok, -⟩ | herror
      · rw [hok] at hcall
        cases hcall
      · rw [herror] at hcall
        cases hcall
        exact ih

/-- Every state that calls of `nu__archetype_create` reach from `nu__table_manager_init` is the
registry of the calls that succeeded. A call that fails stores the handle 0 and changes
nothing, and no run of later calls changes the entries and fields that are there. -/
theorem createRun_isRegistry {ac fc cc : UInt16} {memory : TableMemory} {cs : List CreateCall}
    {m : TableManager} (hrun : CreateRun (tableManagerInit ac fc cc memory) cs m) :
    IsRegistry m cs ∧
      (∀ (c : CreateCall) e handle m',
        vmCreateArchetype m c.name c.fields c.fieldCount = (some e, handle, m') →
          e = .outOfMemory ∧ handle = 0 ∧ m' = m) ∧
      ∀ cs' m', CreateRun m cs' m' →
        (∀ i < m.archetypeCount.toNat, m'.archetypes i = m.archetypes i) ∧
          ∀ j < m.fieldCount.toNat, m'.fields j = m.fields j := by
  have hreg := (CreateRun.isRegistry (isRegistry_init ac fc cc memory) hrun).1
  refine ⟨hreg, fun c e handle m' hcall => ?_, fun cs' m' hlater => (hlater.isRegistry hreg).2⟩
  rcases vmCreateArchetype_cases m c with ⟨handle', m₁, hok, -⟩ | herror
  · rw [hok] at hcall
    cases hcall
  · rw [herror] at hcall
    cases hcall
    exact ⟨rfl, rfl, rfl⟩

/-- Two archetypes with two fields and one field. -/
def twoCreations : List CreateCall :=
  [⟨"player".toList, fun _ => ⟨"health".toList, .int, 0⟩, 2⟩,
    ⟨"enemy".toList, fun _ => ⟨"target".toList, .entity, 1⟩, 1⟩]

/-- Two creations, and a third one that the tables have no room for. -/
theorem createRun_isRegistry_two :
    ∃ m, CreateRun (tableManagerInit 2 4 1 filledMemory) twoCreations m ∧
      IsRegistry m twoCreations ∧ m.firstArchetype = 2 ∧
      vmCreateArchetype m "third".toList (fun _ => ⟨[], .int, 0⟩) 0 =
        (some .outOfMemory, 0, m) := by
  have hrun : CreateRun (tableManagerInit 2 4 1 filledMemory) twoCreations _ :=
    .ok _ (.ok _ .refl rfl) rfl
  exact ⟨_, hrun, (createRun_isRegistry hrun).1, rfl, rfl⟩

end Nucleus.Proofs
