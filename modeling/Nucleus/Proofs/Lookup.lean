import Mathlib.Data.List.Find
import Nucleus.Proofs.Registry

/-!
# `Nucleus.Proofs.Lookup`: archetypes and fields by name

`nu__archetype_find` and `nu__archetype_find_field` compare the hash of the stored name with
the one they are asked for. A stored name is the first 30 characters of the name it was set
from, and the index of a field is its position in the pool of all fields, where the position 0
is also `NU_NULL`.

`archetypeFind_cases` and `archetypeFindField_eq` say what the two searches return in a registry.
From them `findsArchetypes_iff` and `findsFields_iff` decide when the searches do what their
callers expect.
-/

set_option autoImplicit false

namespace Nucleus.Proofs

open Nucleus.Lib
open Nucleus.Vm

/-! ### The specification -/

/-- Calls of `nu__archetype_create` from `m` on, with those that succeeded and the handles that
they returned. -/
inductive HandleRun (m : TableManager) : List (CreateCall × UInt16) → TableManager → Prop where
  | refl : HandleRun m [] m
  | ok {cs : List (CreateCall × UInt16)} {m' : TableManager} {handle : UInt16}
      {m'' : TableManager} (c : CreateCall) : HandleRun m cs m' →
      vmCreateArchetype m' c.name c.fields c.fieldCount = (none, handle, m'') →
      HandleRun m (cs ++ [(c, handle)]) m''
  | error {cs : List (CreateCall × UInt16)} {m' : TableManager} {e : Vm.Error}
      {handle : UInt16} {m'' : TableManager} (c : CreateCall) : HandleRun m cs m' →
      vmCreateArchetype m' c.name c.fields c.fieldCount = (some e, handle, m'') →
      HandleRun m cs m''

/-- Every archetype is found by the name it was created with, and no other name finds one. -/
structure FindsArchetypes (m : TableManager) (cs : List (CreateCall × UInt16)) : Prop where
  created : ∀ x ∈ cs, archetypeFind m (uid x.1.name) = some x.2
  absent : ∀ name, (∀ x ∈ cs, uid x.1.name ≠ uid name) → archetypeFind m (uid name) = some 0

/-- The fields of `c` are found in the archetype `handle`, each as an index of its own, and only
a hash that no field has finds none. -/
structure FindsFields (m : TableManager) (handle : UInt16) (c : CreateCall) : Prop where
  null_iff : ∀ u, ∃ f, archetypeFindField m handle u = some f ∧
    (f = 0 ↔ ¬ ∃ j < c.fieldCount.toNat, uid (c.fields j).name = u)
  apart : ∀ i < c.fieldCount.toNat, ∀ j < c.fieldCount.toNat, i ≠ j → ∃ f g,
    archetypeFindField m handle (uid (c.fields i).name) = some f ∧
    archetypeFindField m handle (uid (c.fields j).name) = some g ∧ f ≠ 0 ∧ g ≠ 0 ∧ f ≠ g

/-- The hash of a name as it is stored. -/
def storedUid (name : List Char) : UInt32 := uid (name.take identMax)

/-! ### Hashes of names -/

/-- A string of C ends at its terminator. -/
theorem strlen_eq_takeWhile (s : List Char) : strlen s = (s.takeWhile (· ≠ '\x00')).length := by
  induction s with
  | nil => rfl
  | cons c s ih =>
      by_cases hc : c = '\x00'
      · simp [strlen, hc]
      · simp [strlen, hc, ih]

/-- `nu_uid` hashes the bytes before the NUL. -/
theorem uid_eq (s : List Char) :
    uid s = fnv1aHash32 ((s.takeWhile (· ≠ '\x00')).map fun c => UInt8.ofNat c.toNat) := by
  unfold uid
  rw [strlen_eq_takeWhile]
  congr 1
  refine List.ext_getElem (by simp) fun i hi _ => ?_
  rw [List.length_map, List.length_range] at hi
  have hpre : s.takeWhile (· ≠ '\x00') <+: s := List.takeWhile_prefix _
  simp only [List.getElem_map, List.getElem_range, charAt]
  rw [hpre.getElem hi, List.getD_eq_getElem?_getD,
    List.getElem?_eq_getElem (Nat.lt_of_lt_of_le hi hpre.length_le)]
  rfl

/-- The identifier of a name is the hash of what is stored of it. -/
theorem storedUid_eq (name : List Char) : storedUid name = fnv1aHash32 (identText name) := by
  unfold storedUid identText
  rw [uid_eq, List.take_takeWhile]

/-- A name of at most 30 characters is stored whole. -/
theorem storedUid_of_strlen_le {name : List Char} (h : strlen name ≤ identMax) :
    storedUid name = uid name := by
  rw [storedUid_eq, uid_eq, identText,
    List.take_of_length_le (by rw [← strlen_eq_takeWhile]; exact h)]

/-- The hash that the searches compare with. -/
theorem identUid_eq {ident : Ident} {name : List Char} (h : identStr ident = identText name) :
    identUid ident = storedUid name := by
  rw [identUid, h, storedUid_eq]

/-! ### Handles -/

/-- A run with its handles is a run. -/
theorem HandleRun.createRun {m m' : TableManager} {cs : List (CreateCall × UInt16)}
    (h : HandleRun m cs m') : CreateRun m (cs.map Prod.fst) m' := by
  induction h with
  | refl => exact .refl
  | ok c _ hcall ih =>
      rw [List.map_append]
      exact .ok c ih hcall
  | error c _ hcall ih => exact .error c ih hcall

/-- The registry that a run with handles ends in. -/
theorem HandleRun.isRegistry {ac fc cc : UInt16} {memory : TableMemory}
    {cs : List (CreateCall × UInt16)} {m : TableManager}
    (h : HandleRun (tableManagerInit ac fc cc memory) cs m) : IsRegistry m (cs.map Prod.fst) :=
  (h.createRun.isRegistry (isRegistry_init ac fc cc memory)).1

/-- The handles of a run are numbered in the order of the creations. -/
theorem HandleRun.handles {ac fc cc : UInt16} {memory : TableMemory}
    {cs : List (CreateCall × UInt16)} {m : TableManager}
    (h : HandleRun (tableManagerInit ac fc cc memory) cs m) :
    cs.map Prod.snd = handlesOf cs.length := by
  induction h with
  | refl => rfl
  | @ok cs m' handle m'' c hrun hcall ih =>
      rcases vmCreateArchetype_cases m' c with ⟨handle', m₁, hok, hcreated⟩ | herror
      · rw [hok] at hcall
        cases hcall
        have hcount : m'.archetypeCount.toNat = cs.length := by
          rw [hrun.isRegistry.count, List.length_map]
        -- the handle is the number of the archetypes, the new one included
        have hhandle : handle = UInt16.ofNat (cs.length + 1) := by
          rw [hcreated.handle_eq, ← hcount, UInt16.ofNat_add, UInt16.ofNat_toNat]
          rfl
        rw [List.map_append, ih, List.length_append, hhandle]
        simp [handlesOf, List.range_succ]
      · rw [herror] at hcall
        cases hcall
  | error c _ _ ih => exact ih

/-- The handle of a creation is its number. -/
theorem HandleRun.getElem?_handle {ac fc cc : UInt16} {memory : TableMemory}
    {cs : List (CreateCall × UInt16)} {m : TableManager}
    (h : HandleRun (tableManagerInit ac fc cc memory) cs m) {i : Nat}
    {x : CreateCall × UInt16} (hi : cs[i]? = some x) : x.2 = UInt16.ofNat (i + 1) := by
  have hlt : i < cs.length := (List.getElem?_eq_some_iff.mp hi).1
  have hsnd : (cs.map Prod.snd)[i]? = some x.2 := by rw [List.getElem?_map, hi]; rfl
  rw [h.handles, handlesOf, List.getElem?_map, List.getElem?_range hlt] at hsnd
  exact (Option.some.inj hsnd).symm

/-! ### The search for an archetype -/

/-- A handle that is not null is one more than its index. -/
theorem toNat_sub_one {a : UInt16} (h : a ≠ 0) : (a - 1).toNat = a.toNat - 1 := by
  have hpos : 0 < a.toNat := Nat.pos_of_ne_zero fun hz => h (UInt16.toNat_inj.mp hz)
  rw [UInt16.toNat_sub_of_le]
  · rfl
  · exact UInt16.le_iff_toNat_le.mpr hpos

/-- The search visits a chain up to the first name with the hash. -/
theorem archetypeFindLoop_eq {m : TableManager} {u : UInt32} {fuel : Nat} {handle : UInt16}
    {l : List UInt16} (hchain : IsChain 0 (nextArchetype m) handle l)
    (hvalid : ∀ x ∈ l, x.toNat ≤ m.archetypeCapacity.toNat) (hfuel : l.length < fuel) :
    archetypeFindLoop m u fuel handle =
      some ((l.find? fun x => identUid (m.archetypes (x.toNat - 1)).name = u).getD 0) := by
  induction l generalizing fuel handle with
  | nil =>
      obtain ⟨fuel, rfl⟩ : ∃ k, fuel = k + 1 := ⟨fuel - 1, by simp at hfuel; omega⟩
      have hnull : handle = 0 := hchain
      simp [archetypeFindLoop, hnull]
  | cons x l ih =>
      obtain ⟨fuel, rfl⟩ : ∃ k, fuel = k + 1 := ⟨fuel - 1, by simp at hfuel; omega⟩
      obtain ⟨rfl, hne, hrest⟩ := hchain
      have hle := hvalid handle (by simp)
      have hpos : handle.toNat ≠ 0 := fun hz => hne (UInt16.toNat_inj.mp hz)
      -- a handle is one more than the position of its entry
      have hin : ¬ handle.toNat - 1 ≥ m.archetypeCapacity.toNat := by omega
      simp only [archetypeFindLoop, hne, if_false, toNat_sub_one hne, hin]
      by_cases hname : identUid (m.archetypes (handle.toNat - 1)).name = u
      · simp [hname]
      · rw [if_neg hname, List.find?_cons_of_neg (by simpa using hname)]
        exact ih hrest (fun y hy => hvalid y (by simp [hy])) (by simpa using hfuel)

/-- In a registry the search ends: at an archetype whose stored name has the hash, or at 0 when
none has. -/
theorem IsRegistry.archetypeFind_cases {m : TableManager} {cs : List CreateCall}
    (h : IsRegistry m cs) (u : UInt32) :
    (∃ i c, cs[i]? = some c ∧ storedUid c.name = u ∧
        archetypeFind m u = some (UInt16.ofNat (i + 1))) ∨
      (∀ c ∈ cs, storedUid c.name ≠ u) ∧ archetypeFind m u = some 0 := by
  have hcap : cs.length ≤ m.archetypeCapacity.toNat := by
    rw [← h.count]
    exact UInt16.le_iff_toNat_le.mp h.archetypes_le
  have hlt : m.archetypeCapacity.toNat < 65536 := m.archetypeCapacity.toNat_lt
  have hval : ∀ i < cs.length, (UInt16.ofNat (i + 1)).toNat = i + 1 := fun i hi =>
    UInt16.toNat_ofNat_of_lt' (show i + 1 < 65536 by omega)
  have hmem : ∀ x ∈ (handlesOf cs.length).reverse, ∃ i < cs.length, x = UInt16.ofNat (i + 1) := by
    intro x hx
    rw [List.mem_reverse, handlesOf, List.mem_map] at hx
    obtain ⟨i, hi, rfl⟩ := hx
    exact ⟨i, List.mem_range.mp hi, rfl⟩
  -- the search goes along the chain, from the last archetype to the first
  have hloop : archetypeFind m u = _ := archetypeFindLoop_eq h.chain (fun x hx => by
    obtain ⟨i, hi, rfl⟩ := hmem x hx
    rw [hval i hi]
    omega) (by simp [handlesOf]; omega)
  rw [hloop]
  cases hfind : (handlesOf cs.length).reverse.find?
      fun x => identUid (m.archetypes (x.toNat - 1)).name = u with
  | none =>
      refine Or.inr ⟨fun c hc hu => ?_, rfl⟩
      obtain ⟨i, hi, rfl⟩ := List.mem_iff_getElem.mp hc
      have hno := List.find?_eq_none.mp hfind (UInt16.ofNat (i + 1)) (by
        rw [List.mem_reverse, handlesOf]
        exact List.mem_map.mpr ⟨i, List.mem_range.mpr hi, rfl⟩)
      rw [hval i hi, Nat.add_sub_cancel,
        identUid_eq (h.names i _ (List.getElem?_eq_getElem hi))] at hno
      exact hno (decide_eq_true hu)
  | some x =>
      obtain ⟨i, hi, rfl⟩ := hmem x (List.mem_of_find?_eq_some hfind)
      have hyes := List.find?_some hfind
      rw [decide_eq_true_eq, hval i hi, Nat.add_sub_cancel,
        identUid_eq (h.names i _ (List.getElem?_eq_getElem hi))] at hyes
      exact Or.inl ⟨i, cs[i], List.getElem?_eq_getElem hi, hyes, rfl⟩

/-- Archetypes created with names of different hashes are found by these names, and no other
name finds one, exactly when every name has the hash of its first 30 characters. -/
theorem findsArchetypes_iff {ac fc cc : UInt16} {memory : TableMemory}
    {cs : List (CreateCall × UInt16)} {m : TableManager}
    (hrun : HandleRun (tableManagerInit ac fc cc memory) cs m)
    (hne : (cs.map fun x => uid x.1.name).Nodup) :
    FindsArchetypes m cs ↔ ∀ x ∈ cs, uid (x.1.name.take identMax) = uid x.1.name := by
  have hreg := hrun.isRegistry
  have hget : ∀ {i : Nat} {c : CreateCall}, (cs.map Prod.fst)[i]? = some c →
      ∃ x, cs[i]? = some x ∧ x.1 = c := by
    intro i c hi
    rw [List.getElem?_map] at hi
    exact Option.map_eq_some_iff.mp hi
  constructor
  · intro h x hx
    have hfound := h.created x hx
    obtain ⟨i, hi⟩ := List.mem_iff_getElem?.mp hx
    have hhandle := hrun.getElem?_handle hi
    have hlen := (List.getElem?_eq_some_iff.mp hi).1
    have hcap : cs.length < 65536 := by
      have hcount := hreg.count
      rw [List.length_map] at hcount
      rw [← hcount]
      exact m.archetypeCount.toNat_lt
    rcases hreg.archetypeFind_cases (uid x.1.name) with ⟨j, c, hj, hstored, heq⟩ | ⟨-, heq⟩
    · -- the search ends at the handle of `x`, and so at the entry of `x`
      obtain ⟨y, hy, rfl⟩ := hget hj
      have hjlen := (List.getElem?_eq_some_iff.mp hy).1
      have hsame := congrArg UInt16.toNat
        (Option.some.inj (hfound.symm.trans heq) : x.2 = UInt16.ofNat (j + 1))
      rw [hhandle, UInt16.toNat_ofNat_of_lt' (show i + 1 < 65536 by omega),
        UInt16.toNat_ofNat_of_lt' (show j + 1 < 65536 by omega)] at hsame
      obtain rfl : i = j := by omega
      obtain rfl : x = y := Option.some.inj (hi.symm.trans hy)
      exact hstored
    · have hzero := congrArg UInt16.toNat
        (Option.some.inj (hfound.symm.trans heq) : x.2 = 0)
      rw [hhandle, UInt16.toNat_ofNat_of_lt' (show i + 1 < 65536 by omega)] at hzero
      exact absurd hzero (Nat.succ_ne_zero i)
  · intro h
    have hstored : ∀ x ∈ cs, storedUid x.1.name = uid x.1.name := h
    refine ⟨fun x hx => ?_, fun name hother => ?_⟩
    · rcases hreg.archetypeFind_cases (uid x.1.name) with ⟨j, c, hj, hu, heq⟩ | ⟨hnone, -⟩
      · obtain ⟨y, hy, rfl⟩ := hget hj
        rw [hstored y (List.mem_of_getElem? hy)] at hu
        -- the names have different hashes, so the search ended at `x`
        obtain rfl : y = x :=
          List.inj_on_of_nodup_map hne (List.mem_of_getElem? hy) hx hu
        rw [heq, hrun.getElem?_handle hy]
      · exact absurd (hstored x hx) (hnone x.1 (List.mem_map.mpr ⟨x, hx, rfl⟩))
    · rcases hreg.archetypeFind_cases (uid name) with ⟨j, c, hj, hu, -⟩ | ⟨-, heq⟩
      · obtain ⟨y, hy, rfl⟩ := hget hj
        rw [hstored y (List.mem_of_getElem? hy)] at hu
        exact absurd hu (hother y (List.mem_of_getElem? hy))
      · exact heq

/-- An archetype with a name of 31 characters. -/
def longNamed : CreateCall := ⟨"abcdefghijklmnopqrstuvwxyz_name".toList, fun _ => ⟨[], .int, 0⟩, 0⟩

/-- An archetype with a name of 31 characters is not found. -/
theorem longNamed_not_found :
    ∃ m, HandleRun (tableManagerInit 1 1 1 filledMemory) [(longNamed, 1)] m ∧
      ([(longNamed, (1 : UInt16))].map fun x => uid x.1.name).Nodup ∧
      archetypeFind m (uid longNamed.name) = some 0 ∧
      ¬ FindsArchetypes m [(longNamed, 1)] := by
  have hrun : HandleRun (tableManagerInit 1 1 1 filledMemory) [(longNamed, 1)] _ :=
    .ok longNamed .refl rfl
  have hnull : archetypeFind (archetypeCreate (tableManagerInit 1 1 1 filledMemory)
      longNamed.name longNamed.fields 0).2 (uid longNamed.name) = some 0 := by
    decide +kernel
  refine ⟨_, hrun, by simp, hnull, fun h => ?_⟩
  have hfound := h.created (longNamed, 1) (by simp)
  exact absurd (hfound.symm.trans hnull) (by simp)

/-- The archetypes of `twoCreations` with their handles. -/
def twoHandles : List (CreateCall × UInt16) := twoCreations.zip [1, 2]

/-- Two archetypes are found. -/
theorem findsArchetypes_two :
    ∃ m, HandleRun (tableManagerInit 2 4 1 filledMemory) twoHandles m ∧
      FindsArchetypes m twoHandles := by
  have hrun : HandleRun (tableManagerInit 2 4 1 filledMemory) twoHandles _ :=
    .ok _ (.ok _ .refl rfl) rfl
  refine ⟨_, hrun, (findsArchetypes_iff hrun (by decide +kernel)).mpr fun x hx => ?_⟩
  simp only [twoHandles, twoCreations, List.zip_cons_cons, List.zip_nil_right, List.mem_cons,
    List.not_mem_nil, or_false] at hx
  rcases hx with rfl | rfl <;> rfl

/-! ### The search for a field -/

/-- The first field of `c` whose stored name has the hash `u`. -/
def fieldNamed (c : CreateCall) (u : UInt32) : Option Nat :=
  (List.range c.fieldCount.toNat).find? fun j => storedUid (c.fields j).name = u

/-- The loop goes over `n` fields of the pool. -/
theorem findFieldLoop_eq {m : TableManager} {u : UInt32} {n i : Nat}
    (hfit : i + n ≤ m.fieldCapacity.toNat) :
    findFieldLoop m u n i =
      some (((List.range' i n).find? fun k => identUid (m.fields k).name = u).elim 0
        UInt32.ofNat) := by
  induction n generalizing i with
  | zero => rfl
  | succ n ih =>
      have hin : ¬ i ≥ m.fieldCapacity.toNat := by omega
      rw [findFieldLoop, if_neg hin, List.range'_succ]
      by_cases hname : identUid (m.fields i).name = u
      · rw [if_pos hname, List.find?_cons_of_pos (by simpa using hname)]
        rfl
      · rw [if_neg hname, List.find?_cons_of_neg (by simpa using hname)]
        exact ih (by omega)

/-- In a registry the search among the fields of the archetype `i` gives the position in the
pool of the first one whose stored name has the hash. -/
theorem IsRegistry.archetypeFindField_eq {m : TableManager} {cs : List CreateCall}
    (h : IsRegistry m cs) {i : Nat} {c : CreateCall} (hi : cs[i]? = some c) (u : UInt32) :
    archetypeFindField m (UInt16.ofNat (i + 1)) u =
      some ((fieldNamed c u).elim 0 fun j => UInt32.ofNat (fieldsOf (cs.take i) + j)) := by
  have hlen : i < cs.length := (List.getElem?_eq_some_iff.mp hi).1
  have hcap : cs.length ≤ m.archetypeCapacity.toNat := by
    rw [← h.count]
    exact UInt16.le_iff_toNat_le.mp h.archetypes_le
  have hlt : m.archetypeCapacity.toNat < 65536 := m.archetypeCapacity.toNat_lt
  have hhandle : (UInt16.ofNat (i + 1) - 1).toNat = i := by
    have hval : (UInt16.ofNat (i + 1)).toNat = i + 1 :=
      UInt16.toNat_ofNat_of_lt' (show i + 1 < 65536 by omega)
    rw [toNat_sub_one, hval, Nat.add_sub_cancel]
    intro hz
    rw [hz] at hval
    exact absurd hval (Nat.succ_ne_zero i).symm
  obtain ⟨hfirst, hcount⟩ := h.range i c hi
  have hcover := fieldsOf_take_add_le hi
  have hpool : m.fieldCapacity.toNat < 65536 := m.fieldCapacity.toNat_lt
  rw [← h.cover] at hcover
  have hfit : fieldsOf (cs.take i) + c.fieldCount.toNat ≤ m.fieldCapacity.toNat :=
    Nat.le_trans hcover (UInt16.le_iff_toNat_le.mp h.fields_le)
  -- the fields of an archetype stand side by side in the pool
  have hlast : ((m.archetypes i).firstFieldOffset + c.fieldCount.toUInt32).toNat -
      (m.archetypes i).firstFieldOffset.toNat = c.fieldCount.toNat := by
    rw [UInt32.toNat_add, hfirst, UInt16.toNat_toUInt32, Nat.mod_eq_of_lt (by omega)]
    omega
  unfold archetypeFindField
  simp only [hhandle, if_neg (show ¬ i ≥ m.archetypeCapacity.toNat by omega), hcount, hlast]
  rw [hfirst, findFieldLoop_eq hfit, List.range'_eq_map_range, List.find?_map]
  have hsame : ((List.range c.fieldCount.toNat).find?
      ((fun k => decide (identUid (m.fields k).name = u)) ∘ (fieldsOf (cs.take i) + ·))) =
        fieldNamed c u := by
    refine List.find?_congr fun j hj => ?_
    have hname := (h.fields i c hi j (List.mem_range.mp hj)).name
    rw [hfirst] at hname
    simp only [Function.comp_apply, identUid_eq hname]
  rw [hsame]
  cases fieldNamed c u <;> rfl

/-- The fields of an archetype whose names are stored whole and have different hashes are found
at their own positions. -/
theorem fieldNamed_eq {c : CreateCall} {j : Nat} (hj : j < c.fieldCount.toNat)
    (hstored : ∀ k < c.fieldCount.toNat, storedUid (c.fields k).name = uid (c.fields k).name)
    (hne : ∀ k < c.fieldCount.toNat, uid (c.fields k).name = uid (c.fields j).name → k = j) :
    fieldNamed c (uid (c.fields j).name) = some j := by
  rw [fieldNamed, List.find?_range_eq_some]
  refine ⟨by simpa using hstored j hj, List.mem_range.mpr hj, fun k hk => ?_⟩
  have hk' : k < c.fieldCount.toNat := Nat.lt_trans hk hj
  rw [hstored k hk']
  simpa using fun heq => absurd (hne k hk' heq) (Nat.ne_of_lt hk)

/-- A name that no field has is not found. -/
theorem fieldNamed_eq_none {c : CreateCall} {u : UInt32}
    (h : ∀ j < c.fieldCount.toNat, storedUid (c.fields j).name ≠ u) : fieldNamed c u = none := by
  rw [fieldNamed, List.find?_range_eq_none]
  intro j hj
  simpa using h j hj

section
variable {ac fc cc : UInt16} {memory : TableMemory} {pre post : List (CreateCall × UInt16)}
  {c : CreateCall} {handle : UInt16} {m : TableManager}

/-- The search among the fields of the archetype `handle`, created after `pre`. -/
theorem HandleRun.archetypeFindField_eq
    (hrun : HandleRun (tableManagerInit ac fc cc memory) (pre ++ (c, handle) :: post) m)
    (u : UInt32) :
    archetypeFindField m handle u = some ((fieldNamed c u).elim 0 fun j =>
      UInt32.ofNat (fieldsOf (pre.map Prod.fst) + j)) := by
  have hi : (pre ++ (c, handle) :: post)[pre.length]? = some (c, handle) := by simp
  have hc : ((pre ++ (c, handle) :: post).map Prod.fst)[pre.length]? = some c := by
    rw [List.getElem?_map, hi]
    rfl
  have hfind := hrun.isRegistry.archetypeFindField_eq hc u
  rw [← hrun.getElem?_handle hi, ← List.map_take, List.take_left] at hfind
  exact hfind

/-- The fields of `c` end inside the pool. -/
theorem HandleRun.fields_lt
    (hrun : HandleRun (tableManagerInit ac fc cc memory) (pre ++ (c, handle) :: post) m) :
    fieldsOf (pre.map Prod.fst) + c.fieldCount.toNat < 65536 := by
  have hc : ((pre ++ (c, handle) :: post).map Prod.fst)[pre.length]? = some c := by simp
  have hbound := fieldsOf_take_add_le hc
  rw [← List.map_take, List.take_left, ← hrun.isRegistry.cover] at hbound
  exact Nat.lt_of_le_of_lt hbound m.fieldCount.toNat_lt

end

/-- The pool is in use when an archetype has a field. -/
theorem fieldsOf_pos_iff {cs : List CreateCall} :
    0 < fieldsOf cs ↔ ∃ c ∈ cs, c.fieldCount ≠ 0 := by
  induction cs with
  | nil => simp [fieldsOf]
  | cons c cs ih =>
      have hcons : fieldsOf (c :: cs) = c.fieldCount.toNat + fieldsOf cs := by simp [fieldsOf]
      have hzero : c.fieldCount ≠ 0 ↔ 0 < c.fieldCount.toNat := by
        rw [Nat.pos_iff_ne_zero, ne_eq, ne_eq, ← UInt16.toNat_inj]
        rfl
      rw [hcons, Nat.add_pos_iff_pos_or_pos, ih, ← hzero]
      simp

/-- The fields of an archetype are told apart exactly when it has none, or when an archetype
that was created before has one: the first field of the pool has the index 0, which is
`NU_NULL`. -/
theorem findsFields_iff {ac fc cc : UInt16} {memory : TableMemory}
    {pre post : List (CreateCall × UInt16)} {c : CreateCall} {handle : UInt16}
    {m : TableManager}
    (hrun : HandleRun (tableManagerInit ac fc cc memory) (pre ++ (c, handle) :: post) m)
    (hshort : ∀ j < c.fieldCount.toNat, strlen (c.fields j).name ≤ identMax)
    (hne : ∀ i < c.fieldCount.toNat, ∀ j < c.fieldCount.toNat,
      uid (c.fields i).name = uid (c.fields j).name → i = j) :
    FindsFields m handle c ↔ c.fieldCount = 0 ∨ ∃ x ∈ pre, x.1.fieldCount ≠ 0 := by
  have hfind := hrun.archetypeFindField_eq
  have hlt := hrun.fields_lt
  -- the position of the first field is the number of the fields before it
  have hearlier : (∃ x ∈ pre, x.1.fieldCount ≠ 0) ↔ 0 < fieldsOf (pre.map Prod.fst) := by
    rw [fieldsOf_pos_iff]
    simp
  rw [hearlier]
  generalize fieldsOf (pre.map Prod.fst) = offset at hfind hlt ⊢
  have hval : ∀ j < c.fieldCount.toNat, (UInt32.ofNat (offset + j)).toNat = offset + j :=
    fun j hj => UInt32.toNat_ofNat_of_lt' (show offset + j < 4294967296 by omega)
  have hstored : ∀ j < c.fieldCount.toNat,
      storedUid (c.fields j).name = uid (c.fields j).name := fun j hj =>
    storedUid_of_strlen_le (hshort j hj)
  -- every field is found, at its position
  have hfield : ∀ j < c.fieldCount.toNat, archetypeFindField m handle (uid (c.fields j).name) =
      some (UInt32.ofNat (offset + j)) := by
    intro j hj
    rw [hfind, fieldNamed_eq hj hstored fun k hk => hne k hk j hj]
    rfl
  constructor
  · intro h
    by_cases hzero : c.fieldCount = 0
    · exact Or.inl hzero
    · -- the first field is found, so its position is not 0
      have hpos : 0 < c.fieldCount.toNat :=
        Nat.pos_of_ne_zero fun hz => hzero (UInt16.toNat_inj.mp hz)
      obtain ⟨f, hf, hnull⟩ := h.null_iff (uid (c.fields 0).name)
      rw [hfield 0 hpos] at hf
      refine Or.inr (Nat.pos_of_ne_zero fun hoffset => ?_)
      have hf0 : f = 0 := by
        rw [← Option.some.inj hf, hoffset]
        rfl
      exact hnull.mp hf0 ⟨0, hpos, rfl⟩
  · intro h
    -- with a field before them no position is 0
    have hoffset : ∀ j < c.fieldCount.toNat, 0 < offset := by
      intro j hj
      rcases h with hzero | hpos
      · rw [hzero] at hj
        exact absurd hj (Nat.not_lt_zero j)
      · exact hpos
    have hne0 : ∀ j < c.fieldCount.toNat, UInt32.ofNat (offset + j) ≠ 0 := by
      intro j hj hz
      have hnat := congrArg UInt32.toNat hz
      rw [hval j hj] at hnat
      have := hoffset j hj
      exact absurd hnat (by simp only [UInt32.toNat_zero]; omega)
    refine ⟨fun u => ?_, fun i hi j hj hij => ?_⟩
    -- a name of a field is found, and another one is not
    · by_cases hu : ∃ j < c.fieldCount.toNat, uid (c.fields j).name = u
      · obtain ⟨j, hj, rfl⟩ := hu
        exact ⟨_, hfield j hj, iff_of_false (hne0 j hj) (not_not_intro ⟨j, hj, rfl⟩)⟩
      · refine ⟨0, ?_, iff_of_true rfl hu⟩
        rw [hfind, fieldNamed_eq_none fun j hj heq => hu ⟨j, hj, (hstored j hj).symm.trans heq⟩]
        rfl
    · refine ⟨_, _, hfield i hi, hfield j hj, hne0 i hi, hne0 j hj, fun heq => hij ?_⟩
      -- two fields have two positions
      have hnat := congrArg UInt32.toNat heq
      rw [hval i hi, hval j hj] at hnat
      omega

/-- Two archetypes with two fields each. -/
def player : CreateCall :=
  ⟨"player".toList,
    fun i => if i = 0 then ⟨"health".toList, .int, 0⟩ else ⟨"speed".toList, .fix, 0⟩, 2⟩

/-- The archetype `player` under another name. -/
def enemy : CreateCall := { player with name := "enemy".toList }

/-- The first field of the first archetype is at the position 0, which is that of no field. -/
theorem handleRun_player :
    ∃ m, HandleRun (tableManagerInit 2 4 1 filledMemory) [(player, 1), (enemy, 2)] m ∧
      archetypeFindField m 1 (uid "health".toList) = some 0 := by
  have hrun : HandleRun (tableManagerInit 2 4 1 filledMemory) [(player, 1), (enemy, 2)] _ :=
    .ok _ (.ok _ .refl rfl) rfl
  exact ⟨_, hrun, by decide +kernel⟩

/-- The fields of `player` have different names. -/
theorem player_uid_inj : ∀ i < player.fieldCount.toNat, ∀ j < player.fieldCount.toNat,
    uid (player.fields i).name = uid (player.fields j).name → i = j := by
  decide +kernel

/-- The first field of the first archetype is found at `NU_NULL`. -/
theorem health_not_found :
    ∃ m, HandleRun (tableManagerInit 2 4 1 filledMemory) [(player, 1), (enemy, 2)] m ∧
      (∀ j < player.fieldCount.toNat, strlen (player.fields j).name ≤ identMax) ∧
      (∀ i < player.fieldCount.toNat, ∀ j < player.fieldCount.toNat,
        uid (player.fields i).name = uid (player.fields j).name → i = j) ∧
      archetypeFindField m 1 (uid "health".toList) = some 0 ∧ ¬ FindsFields m 1 player := by
  obtain ⟨m, hrun, hnull⟩ := handleRun_player
  refine ⟨m, hrun, by decide, player_uid_inj, hnull, fun h => ?_⟩
  obtain ⟨f, hf, hiff⟩ := h.null_iff (uid "health".toList)
  have hf0 : f = 0 := Option.some.inj (hf.symm.trans hnull)
  exact hiff.mp hf0 ⟨0, by decide, rfl⟩

/-- The fields of the second archetype are found. -/
theorem findsFields_enemy :
    ∃ m, HandleRun (tableManagerInit 2 4 1 filledMemory) [(player, 1), (enemy, 2)] m ∧
      FindsFields m 2 enemy := by
  obtain ⟨m, hrun, -⟩ := handleRun_player
  have hsplit : HandleRun (tableManagerInit 2 4 1 filledMemory)
      ([(player, 1)] ++ (enemy, 2) :: []) m := hrun
  have hiff := findsFields_iff hsplit (by decide) player_uid_inj
  exact ⟨m, hrun, hiff.mpr (Or.inr ⟨(player, 1), by simp, by decide⟩)⟩

end Nucleus.Proofs
