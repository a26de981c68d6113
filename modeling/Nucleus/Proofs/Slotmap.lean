import Mathlib.Data.List.Perm.Basic
import Nucleus.Lib.Chain
import Nucleus.Vm.Slotmap

/-!
# `Nucleus.Proofs.Slotmap`: the slot map is an allocator

A run of a slot map is the list of its calls with their results (`SlotEvent`). `liveSlots`,
`freedSlots` and `unusedSlots` read off it which slots are handed out, which were given back and
which were never used, and `lastContent` what the owner of a slot last wrote.

`SlotmapInv` is the invariant of a run: the links in the bytes of the free slots are the chain
of the slots given back, the last one first, with the slots never used behind it.
`slotRun_isAllocator` is what a user sees.
-/

set_option autoImplicit false

namespace Nucleus.Proofs

open Nucleus.Lib
open Nucleus.Vm

/-! ### The specification -/

/-- A call with its result. The content of an `add` is what the object holds then. -/
inductive SlotEvent where
  | add (slot : Slot) (content : Nat → UInt8)
  | remove (slot : Slot)
  | write (slot : Slot) (content : Nat → UInt8)

/-- The slots handed out and not given back. -/
def liveSlotsStep (live : List Slot) : SlotEvent → List Slot
  | .add slot _ => slot :: live
  | .remove slot => live.erase slot
  | .write _ _ => live

/-- The slots given back and not yet reused, the last one first. -/
def freedSlotsStep (freed : List Slot) : SlotEvent → List Slot
  | .add slot _ => freed.erase slot
  | .remove slot => if slot = slotNull then freed else slot :: freed
  | .write _ _ => freed

/-- The slots never used. -/
def unusedSlotsStep (unused : List Slot) : SlotEvent → List Slot
  | .add slot _ => unused.erase slot
  | .remove _ => unused
  | .write _ _ => unused

/-- The bytes last written to each object by its owner, or the ones it was handed out with. -/
def lastContentStep (contents : Slot → Nat → UInt8) : SlotEvent → Slot → Nat → UInt8
  | .add slot content => Function.update contents slot content
  | .remove _ => contents
  | .write slot content => Function.update contents slot content

/-- The slots `1..capacity`, in order. -/
def slotsOf (capacity : UInt16) : List Slot :=
  (List.range capacity.toNat).map fun i => UInt16.ofNat (i + 1)

/-- The slots that a run has handed out and not taken back. -/
def liveSlots (es : List SlotEvent) : List Slot := es.foldl liveSlotsStep []

/-- The slots that a run has taken back and not reused. -/
def freedSlots (es : List SlotEvent) : List Slot := es.foldl freedSlotsStep []

/-- The slots of a map that a run has not used. -/
def unusedSlots (capacity : UInt16) (es : List SlotEvent) : List Slot :=
  es.foldl unusedSlotsStep (slotsOf capacity)

/-- The bytes that a run has last put into each slot. -/
def lastContent (es : List SlotEvent) : Slot → Nat → UInt8 := es.foldl lastContentStep fun _ _ => 0

/-- The object of a slot. -/
def objectOf (s : Slotmap) (slot : Slot) : Nat → UInt8 := fun j => s.data (s.offset slot + j)

/-- A run from `nu__slotmap_init`: `add` while fewer than `capacity` slots are live, `remove` of
a live slot or of none, and writes to live objects through `nu__slotmap_get`. -/
inductive SlotRun (memory : Nat → UInt8) (objSize : Nat) (capacity : UInt16) :
    List SlotEvent → Slotmap → Prop where
  | init : SlotRun memory objSize capacity [] (slotmapInit memory objSize capacity)
  | add {es : List SlotEvent} {s : Slotmap} :
      SlotRun memory objSize capacity es s → (liveSlots es).length < capacity.toNat →
      SlotRun memory objSize capacity
        (es ++ [.add (slotmapAdd s).1 (objectOf (slotmapAdd s).2 (slotmapAdd s).1)])
        (slotmapAdd s).2
  | remove {es : List SlotEvent} {s : Slotmap} {slot : Slot} :
      SlotRun memory objSize capacity es s → (slot ∈ liveSlots es ∨ slot = slotNull) →
      SlotRun memory objSize capacity (es ++ [.remove slot]) (slotmapRemove s slot)
  | write {es : List SlotEvent} {s : Slotmap} {slot : Slot} {o : Nat} (content : Nat → UInt8) :
      SlotRun memory objSize capacity es s → slot ∈ liveSlots es → slotmapGet s slot = some o →
      SlotRun memory objSize capacity (es ++ [.write slot content]) (writeObject s o content)

/-- The link stored in the object of a free slot. -/
def slotLink (s : Slotmap) (slot : Slot) : Slot := readSlot s.data (s.offset slot)

/-- The map hands out the slots that are not live, and keeps the bytes of those that are. The
free chain ends at the slot after the last one. -/
structure IsAllocator (capacity : UInt16) (es : List SlotEvent) (s : Slotmap) : Prop where
  chain : IsChain (capacity + 1) (slotLink s) s.free (freedSlots es ++ unusedSlots capacity es)
  nodup : (freedSlots es ++ unusedSlots capacity es).Nodup
  free_iff : ∀ slot, slot ∈ freedSlots es ++ unusedSlots capacity es ↔
    (slot ≠ slotNull ∧ slot ≤ capacity) ∧ slot ∉ liveSlots es
  bytes : ∀ slot ∈ liveSlots es, ∃ o, slotmapGet s slot = some o ∧
    ∀ j < s.objSize, s.data (o + j) = lastContent es slot j

/-! ### Links in bytes -/

/-- A slot that was written is read back. -/
theorem readSlot_writeSlot (data : Nat → UInt8) (o : Nat) (v : Slot) :
    readSlot (writeSlot data o v) o = v := by
  have hv : v.toNat < 65536 := v.toNat_lt
  have hlow : writeSlot data o v o = UInt8.ofNat (v.toNat % 256) := by
    rw [writeSlot, Function.update_of_ne (Nat.ne_of_lt (Nat.lt_succ_self o)), Function.update_self]
  have hhigh : writeSlot data o v (o + 1) = UInt8.ofNat (v.toNat / 256) := by
    rw [writeSlot, Function.update_self]
  have hbytes : v.toNat % 256 % 256 + 256 * (v.toNat / 256 % 256) = v.toNat := by omega
  rw [readSlot, hlow, hhigh, UInt8.toNat_ofNat', UInt8.toNat_ofNat']
  show UInt16.ofNat (v.toNat % 256 % 256 + 256 * (v.toNat / 256 % 256)) = v
  rw [hbytes]
  exact UInt16.ofNat_toNat

/-- A store writes the two bytes of its slot only. -/
theorem writeSlot_of_ne {data : Nat → UInt8} {o a : Nat} {v : Slot} (h : a ≠ o) (h' : a ≠ o + 1) :
    writeSlot data o v a = data a := by
  rw [writeSlot, Function.update_of_ne h', Function.update_of_ne h]

/-- A slot depends on its two bytes. -/
theorem readSlot_congr {data data' : Nat → UInt8} {o : Nat} (h : data' o = data o)
    (h' : data' (o + 1) = data (o + 1)) : readSlot data' o = readSlot data o := by
  rw [readSlot, readSlot, h, h']

/-! ### The objects lie apart -/

/-- A place in an array of rows has one row. -/
theorem mul_add_inj {n a b j k : Nat} (hj : j < n) (hk : k < n) (h : n * a + j = n * b + k) :
    a = b := by
  have hpos : 0 < n := Nat.lt_of_le_of_lt (Nat.zero_le j) hj
  have ha : (n * a + j) / n = a := by
    rw [Nat.mul_add_div hpos, Nat.div_eq_of_lt hj, Nat.add_zero]
  have hb : (n * b + k) / n = b := by
    rw [Nat.mul_add_div hpos, Nat.div_eq_of_lt hk, Nat.add_zero]
  rw [← ha, h, hb]

/-- The slots are counted from one. -/
theorem slot_pos {slot : Slot} (h : slot ≠ slotNull) : 0 < slot.toNat := by
  refine Nat.pos_of_ne_zero fun hz => h ?_
  exact UInt16.toNat_inj.mp hz

/-- The objects of different slots have no byte in common. -/
theorem offset_ne {s : Slotmap} {a b : Slot} {j k : Nat} (ha : a ≠ slotNull) (hb : b ≠ slotNull)
    (hab : a ≠ b) (hj : j < s.objSize) (hk : k < s.objSize) : s.offset a + j ≠ s.offset b + k := by
  intro h
  have hidx := mul_add_inj hj hk h
  have ha := slot_pos ha
  have hb := slot_pos hb
  have heq : a.toNat = b.toNat := by omega
  exact hab (UInt16.toNat_inj.mp heq)

/-! ### The operations -/

/-- A removal writes the head of the free chain into the slot. -/
theorem slotmapRemove_of_ne {s : Slotmap} {slot : Slot} (h : slot ≠ slotNull) :
    slotmapRemove s slot =
      { s with data := writeSlot s.data (s.offset slot) s.free, free := slot } := if_neg h

/-- Giving a slot back writes its link, and no byte of another object. -/
theorem slotmapRemove_data {s : Slotmap} {slot : Slot} (hsize : slotSize ≤ s.objSize)
    (h : slot ≠ slotNull) :
    slotLink (slotmapRemove s slot) slot = s.free ∧
      ∀ a, a ≠ slotNull → a ≠ slot → ∀ j < s.objSize,
        (slotmapRemove s slot).data (s.offset a + j) = s.data (s.offset a + j) := by
  rw [slotmapRemove_of_ne h]
  refine ⟨readSlot_writeSlot _ _ _, fun a ha hne j hj => ?_⟩
  have h0 : 0 < s.objSize := Nat.lt_of_lt_of_le (by decide) hsize
  have h1 : 1 < s.objSize := Nat.lt_of_lt_of_le (by decide) hsize
  exact writeSlot_of_ne (offset_ne ha h hne hj h0) (offset_ne ha h hne hj h1)

/-- A user's write changes the bytes of its object only. -/
theorem writeObject_data {s : Slotmap} {slot : Slot} (content : Nat → UInt8)
    (h : slot ≠ slotNull) :
    (∀ j < s.objSize, (writeObject s (s.offset slot) content).data (s.offset slot + j) =
        content j) ∧
      ∀ a, a ≠ slotNull → a ≠ slot → ∀ j < s.objSize,
        (writeObject s (s.offset slot) content).data (s.offset a + j) =
          s.data (s.offset a + j) := by
  unfold writeObject
  refine ⟨fun j hj => ?_, fun a ha hne j hj => ?_⟩
  · have hin : s.offset slot ≤ s.offset slot + j ∧
        s.offset slot + j < s.offset slot + s.objSize := by omega
    simp only [hin, and_self, if_true, Nat.add_sub_cancel_left]
  · have hout : ¬ (s.offset slot ≤ s.offset a + j ∧
        s.offset a + j < s.offset slot + s.objSize) := by
      rintro ⟨hle, hlt⟩
      have hk : s.offset a + j - s.offset slot < s.objSize := by omega
      refine offset_ne ha h hne hj hk ?_
      omega
    simp only [hout, if_false]

/-! ### The slots of a map -/

/-- The slots of a map. -/
theorem mem_slotsOf {capacity : UInt16} {slot : Slot} :
    slot ∈ slotsOf capacity ↔ slot ≠ slotNull ∧ slot ≤ capacity := by
  have hcap : capacity.toNat < 65536 := capacity.toNat_lt
  unfold slotsOf
  simp only [List.mem_map, List.mem_range]
  constructor
  · rintro ⟨i, hi, rfl⟩
    have hval : (UInt16.ofNat (i + 1)).toNat = i + 1 :=
      UInt16.toNat_ofNat_of_lt' (by show i + 1 < 65536; omega)
    refine ⟨fun h => ?_, UInt16.le_iff_toNat_le.mpr (by rw [hval]; omega)⟩
    rw [h] at hval
    exact absurd hval (by simp [slotNull])
  · rintro ⟨hne, hle⟩
    have hpos := slot_pos hne
    have hle := UInt16.le_iff_toNat_le.mp hle
    refine ⟨slot.toNat - 1, by omega, ?_⟩
    rw [Nat.sub_add_cancel hpos]
    exact UInt16.ofNat_toNat

/-- A map has as many slots as its capacity. -/
theorem length_slotsOf (capacity : UInt16) : (slotsOf capacity).length = capacity.toNat := by
  simp [slotsOf]

/-- The slots are different. -/
theorem nodup_slotsOf (capacity : UInt16) : (slotsOf capacity).Nodup := by
  have hcap : capacity.toNat < 65536 := capacity.toNat_lt
  refine List.Nodup.map_on (fun i hi j hj h => ?_) List.nodup_range
  rw [List.mem_range] at hi hj
  have hval := congrArg UInt16.toNat h
  rw [UInt16.toNat_ofNat_of_lt' (by show i + 1 < 65536; omega),
    UInt16.toNat_ofNat_of_lt' (by show j + 1 < 65536; omega)] at hval
  exact Nat.succ.inj hval

/-- After its turns up to `n`, the loop of `nu__slotmap_init` has linked the first `n` slots. -/
theorem readSlot_slotmapInitLoop {objSize : Nat} (memory : Nat → UInt8)
    (hsize : slotSize ≤ objSize) {n i : Nat} (hi : i < n) :
    readSlot (slotmapInitLoop objSize memory n) (objSize * i) = UInt16.ofNat (i + 2) := by
  have h0 : 0 < objSize := Nat.lt_of_lt_of_le (by decide) hsize
  have h1 : 1 < objSize := Nat.lt_of_lt_of_le (by decide) hsize
  induction n with
  | zero => exact absurd hi (Nat.not_lt_zero i)
  | succ n ih =>
      rw [slotmapInitLoop]
      rcases Nat.lt_succ_iff_lt_or_eq.mp hi with hlt | rfl
      · -- the last turn writes the object of another slot
        rw [← ih hlt]
        have hne : ∀ {j k : Nat}, j < objSize → k < objSize →
            objSize * i + j ≠ objSize * n + k := fun hj hk h =>
          absurd (mul_add_inj hj hk h) (Nat.ne_of_lt hlt)
        exact readSlot_congr (writeSlot_of_ne (hne h0 h0) (hne h0 h1))
          (writeSlot_of_ne (hne h1 h0) (hne h1 h1))
      · exact readSlot_writeSlot _ _ _

/-- The chain of a fresh map runs through all slots in order. -/
theorem seg_slotmapInit {objSize : Nat} (memory : Nat → UInt8) (capacity : UInt16)
    (hsize : slotSize ≤ objSize) :
    Seg (slotLink (slotmapInit memory objSize capacity)) 1 (slotsOf capacity) (capacity + 1) := by
  have hcap : capacity.toNat < 65536 := capacity.toNat_lt
  have hlink : ∀ i < capacity.toNat,
      slotLink (slotmapInit memory objSize capacity) (UInt16.ofNat (i + 1)) =
        UInt16.ofNat (i + 2) := by
    intro i hi
    have hidx : (UInt16.ofNat (i + 1)).toNat - 1 = i := by
      rw [UInt16.toNat_ofNat_of_lt' (by show i + 1 < 65536; omega)]
      rfl
    unfold slotLink Slotmap.offset
    rw [hidx]
    exact readSlot_slotmapInitLoop memory hsize hi
  -- the first `n` slots lead to the slot `n + 1`
  have hseg : ∀ n ≤ capacity.toNat, Seg (slotLink (slotmapInit memory objSize capacity)) 1
      ((List.range n).map fun i => UInt16.ofNat (i + 1)) (UInt16.ofNat (n + 1)) := by
    intro n
    induction n with
    | zero => intro _; rfl
    | succ n ih =>
        intro hn
        rw [List.range_succ, List.map_append, seg_append]
        exact ⟨_, ih (Nat.le_of_succ_le hn), rfl, hlink n hn⟩
  have hend : UInt16.ofNat (capacity.toNat + 1) = capacity + 1 := by
    rw [UInt16.ofNat_add, UInt16.ofNat_toNat]
    rfl
  rw [← hend]
  exact hseg _ (Nat.le_refl _)

/-! ### The invariant -/

/-- The slots `live` are handed out with the bytes `contents`, and the slots `free` are the free
chain. -/
structure SlotmapInv (capacity : UInt16) (s : Slotmap) (live free : List Slot)
    (contents : Slot → Nat → UInt8) : Prop where
  size : slotSize ≤ s.objSize
  chain : Seg (slotLink s) s.free free (capacity + 1)
  slots : (live ++ free).Perm (slotsOf capacity)
  bytes : ∀ slot ∈ live, ∀ j < s.objSize, objectOf s slot j = contents slot j

section
variable {capacity : UInt16} {s : Slotmap} {live free : List Slot}
  {contents : Slot → Nat → UInt8}

/-- A new map has all its slots in the free chain. -/
theorem slotmapInv_init {objSize : Nat} (memory : Nat → UInt8) (capacity : UInt16)
    (hsize : slotSize ≤ objSize) (contents : Slot → Nat → UInt8) :
    SlotmapInv capacity (slotmapInit memory objSize capacity) [] (slotsOf capacity) contents where
  size := hsize
  chain := seg_slotmapInit memory capacity hsize
  slots := List.Perm.refl _
  bytes := by simp

namespace SlotmapInv

/-- No slot is live twice, free twice, or both. -/
theorem nodup (h : SlotmapInv capacity s live free contents) : (live ++ free).Nodup :=
  h.slots.nodup_iff.mpr (nodup_slotsOf capacity)

/-- Each slot is live or free. -/
theorem mem_iff (h : SlotmapInv capacity s live free contents) {slot : Slot} :
    slot ∈ live ∨ slot ∈ free ↔ slot ≠ slotNull ∧ slot ≤ capacity := by
  rw [← mem_slotsOf, ← h.slots.mem_iff, List.mem_append]

/-- A live slot is not null. -/
theorem ne_null (h : SlotmapInv capacity s live free contents) {slot : Slot}
    (hslot : slot ∈ live) : slot ≠ slotNull := (h.mem_iff.mp (Or.inl hslot)).1

/-- A free slot is not null. -/
theorem free_ne_null (h : SlotmapInv capacity s live free contents) {slot : Slot}
    (hslot : slot ∈ free) : slot ≠ slotNull := (h.mem_iff.mp (Or.inr hslot)).1

/-- The chain is not empty while a slot is free. -/
theorem free_ne_nil (h : SlotmapInv capacity s live free contents)
    (hlive : live.length < capacity.toNat) : free ≠ [] := by
  rintro rfl
  have hlength := h.slots.length_eq
  rw [List.append_nil, length_slotsOf] at hlength
  omega

/-- `nu__slotmap_add` takes the head of the chain. -/
theorem add {x : Slot} (h : SlotmapInv capacity s live (x :: free) contents) :
    (slotmapAdd s).1 = x ∧
      SlotmapInv capacity (slotmapAdd s).2 (x :: live) free
        (Function.update contents x (objectOf (slotmapAdd s).2 x)) := by
  obtain ⟨hfree, hseg⟩ := h.chain
  refine ⟨hfree, h.size, ?_, List.perm_middle.symm.trans h.slots, fun slot hslot j hj => ?_⟩
  · show Seg (slotLink s) (slotLink s s.free) free (capacity + 1)
    rw [hfree]
    exact hseg
  · rcases List.mem_cons.mp hslot with rfl | hlive
    · rw [Function.update_self]
    · have hne : slot ≠ x := by
        rintro rfl
        exact List.disjoint_of_nodup_append h.nodup hlive (by simp)
      rw [Function.update_of_ne hne]
      exact h.bytes slot hlive j hj

/-- `nu__slotmap_remove` puts a live slot in front of the chain. -/
theorem remove {x : Slot} (h : SlotmapInv capacity s live free contents) (hx : x ∈ live) :
    SlotmapInv capacity (slotmapRemove s x) (live.erase x) (x :: free) contents := by
  have hnull := h.ne_null hx
  obtain ⟨hlink, hother⟩ := slotmapRemove_data h.size hnull
  have hfields : (slotmapRemove s x).objSize = s.objSize ∧ (slotmapRemove s x).free = x := by
    rw [slotmapRemove_of_ne hnull]
    exact ⟨rfl, rfl⟩
  have hoffset : ∀ a, (slotmapRemove s x).offset a = s.offset a := fun a => by
    unfold Slotmap.offset
    rw [hfields.1]
  have hnd := h.nodup
  refine ⟨hfields.1 ▸ h.size, ⟨hfields.2, ?_⟩, ?_, fun slot hslot j hj => ?_⟩
  · rw [hlink]
    refine h.chain.congr fun c hc => ?_
    have hne : c ≠ x := by
      rintro rfl
      exact List.disjoint_of_nodup_append hnd hx hc
    have hcnull := h.free_ne_null hc
    unfold slotLink
    rw [hoffset]
    -- the link of another free slot is two bytes of another object
    exact readSlot_congr (hother c hcnull hne 0 (Nat.lt_of_lt_of_le (by decide) h.size))
      (hother c hcnull hne 1 (Nat.lt_of_lt_of_le (by decide) h.size))
  · refine List.Perm.trans ?_ h.slots
    refine List.perm_middle.trans ?_
    rw [← List.cons_append]
    exact (List.perm_cons_erase hx).symm.append_right free
  · rw [hfields.1] at hj
    have hne : slot ≠ x := ((List.Nodup.of_append_left hnd).mem_erase_iff.mp hslot).1
    have hslot := List.mem_of_mem_erase hslot
    rw [← h.bytes slot hslot j hj]
    unfold objectOf
    rw [hoffset]
    exact hother slot (h.ne_null hslot) hne j hj

/-- A write to a live object leaves the chain and the other objects alone. -/
theorem write {x : Slot} (h : SlotmapInv capacity s live free contents) (hx : x ∈ live)
    (content : Nat → UInt8) :
    SlotmapInv capacity (writeObject s (s.offset x) content) live free
      (Function.update contents x content) := by
  obtain ⟨hown, hother⟩ := writeObject_data content (h.ne_null hx)
  refine ⟨h.size, ?_, h.slots, fun slot hslot j hj => ?_⟩
  · refine h.chain.congr fun c hc => ?_
    have hne : c ≠ x := by
      rintro rfl
      exact List.disjoint_of_nodup_append h.nodup hx hc
    have hcnull := h.free_ne_null hc
    exact readSlot_congr (hother c hcnull hne 0 (Nat.lt_of_lt_of_le (by decide) h.size))
      (hother c hcnull hne 1 (Nat.lt_of_lt_of_le (by decide) h.size))
  · by_cases hne : slot = x
    · subst hne
      rw [Function.update_self]
      exact hown j hj
    · rw [Function.update_of_ne hne, ← h.bytes slot hslot j hj]
      exact hother slot (h.ne_null hslot) hne j hj

end SlotmapInv

end

/-! ### Runs -/

section
variable {memory : Nat → UInt8} {objSize : Nat} {capacity : UInt16} {es : List SlotEvent}
  {s : Slotmap}

/-- Taking the first slot of the chain takes it out of the lists that the chain consists of. -/
theorem erase_head {x : Slot} {freed unused rest : List Slot}
    (h : freed ++ unused = x :: rest) (hnd : (freed ++ unused).Nodup) :
    freed.erase x ++ unused.erase x = rest := by
  cases freed with
  | nil =>
      obtain rfl : unused = x :: rest := h
      rw [List.erase_cons_head]
      rfl
  | cons f freed =>
      rw [List.cons_append, List.cons.injEq] at h
      obtain ⟨rfl, rfl⟩ := h
      have hx : f ∉ unused := fun hmem =>
        (List.nodup_cons.mp hnd).1 (List.mem_append_right _ hmem)
      rw [List.erase_cons_head, List.erase_of_not_mem hx]

/-- The invariant holds in every run, for the lists that the events give. -/
theorem slotRun_inv (hsize : slotSize ≤ objSize) (h : SlotRun memory objSize capacity es s) :
    SlotmapInv capacity s (liveSlots es) (freedSlots es ++ unusedSlots capacity es)
      (lastContent es) := by
  -- what the last event does to the four records of the run
  have hsnoc : ∀ (es : List SlotEvent) (e : SlotEvent),
      liveSlots (es ++ [e]) = liveSlotsStep (liveSlots es) e ∧
        freedSlots (es ++ [e]) = freedSlotsStep (freedSlots es) e ∧
        unusedSlots capacity (es ++ [e]) = unusedSlotsStep (unusedSlots capacity es) e ∧
        lastContent (es ++ [e]) = lastContentStep (lastContent es) e := fun es e => by
    simp [liveSlots, freedSlots, unusedSlots, lastContent]
  -- on the run, one lemma of the invariant for each operation
  induction h with
  | init => exact slotmapInv_init memory capacity hsize _
  | @add es s _ hlive ih =>
      obtain ⟨hl, hf, hu, hc⟩ := hsnoc es
        (.add (slotmapAdd s).1 (objectOf (slotmapAdd s).2 (slotmapAdd s).1))
      obtain ⟨x, rest, hchain⟩ := List.exists_cons_of_ne_nil (ih.free_ne_nil hlive)
      have hrest := erase_head hchain (List.Nodup.of_append_right ih.nodup)
      rw [hchain] at ih
      obtain ⟨hx, hadd⟩ := ih.add
      rw [hl, hf, hu, hc, hx]
      simp only [liveSlotsStep, freedSlotsStep, unusedSlotsStep, lastContentStep]
      rw [hrest]
      exact hadd
  | @remove es s slot _ hslot ih =>
      obtain ⟨hl, hf, hu, hc⟩ := hsnoc es (.remove slot)
      rw [hl, hf, hu, hc]
      simp only [liveSlotsStep, freedSlotsStep, unusedSlotsStep, lastContentStep]
      -- the null slot is never live, and removing it changes nothing
      by_cases hnull : slot = slotNull
      · subst hnull
        have hnot : slotNull ∉ liveSlots es := fun hmem => ih.ne_null hmem rfl
        rw [if_pos rfl, List.erase_of_not_mem hnot, slotmapRemove, if_pos rfl]
        exact ih
      · rw [if_neg hnull]
        exact ih.remove (hslot.resolve_right hnull)
  | @write es s slot o content _ hslot hget ih =>
      obtain ⟨hl, hf, hu, hc⟩ := hsnoc es (.write slot content)
      rw [hl, hf, hu, hc]
      simp only [liveSlotsStep, freedSlotsStep, unusedSlotsStep, lastContentStep]
      rw [slotmapGet, if_neg (ih.ne_null hslot)] at hget
      obtain rfl := Option.some.inj hget
      exact ih.write hslot content

/-- What the invariant says of the calls a user makes. -/
theorem SlotmapInv.isAllocator
    (h : SlotmapInv capacity s (liveSlots es) (freedSlots es ++ unusedSlots capacity es)
      (lastContent es)) : IsAllocator capacity es s := by
  have hdisj := List.disjoint_of_nodup_append h.nodup
  refine ⟨isChain_iff_seg.mpr ⟨h.chain, fun hmem => ?_⟩, List.Nodup.of_append_right h.nodup,
    fun slot => ?_, fun slot hslot => ?_⟩
  · -- the end of the chain is no slot of the map
    obtain ⟨hne, hle⟩ := h.mem_iff.mp (Or.inr hmem)
    have hle := UInt16.le_iff_toNat_le.mp hle
    have hpos := slot_pos hne
    rw [UInt16.toNat_add] at hle hpos
    have hone : (1 : UInt16).toNat = 1 := rfl
    have hcap : capacity.toNat < 65536 := capacity.toNat_lt
    omega
  · -- every slot of the map is either live or on one of the two free lists
    constructor
    · exact fun hmem => ⟨h.mem_iff.mp (Or.inr hmem), fun hlive => hdisj hlive hmem⟩
    · rintro ⟨hslot, hlive⟩
      exact (h.mem_iff.mpr hslot).resolve_left hlive
  · have hnull := h.ne_null hslot
    exact ⟨s.offset slot, by rw [slotmapGet, if_neg hnull], fun j hj => h.bytes slot hslot j hj⟩

end

end Nucleus.Proofs
