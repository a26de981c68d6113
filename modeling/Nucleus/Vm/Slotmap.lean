import Mathlib.Logic.Function.Basic

/-!
# `Nucleus.Vm.Slotmap`: slot maps and slot lists

`nu__slotmap` and `nu__slotlist` of `vm/slotmap.h`. Slots are numbered from one, the tables
behind them from zero.

A slot map keeps its objects in one block of bytes, and the free slots are linked through the
first two bytes of their objects. So the model keeps the bytes: `data o` is the byte at the
offset `o` behind the header of the map. The address that `nu__slotmap_get` returns is an
offset too.

A slot list keeps two links for each slot. Several lists share the links, and each has its own
`first` variable.
-/

set_option autoImplicit false

namespace Nucleus.Vm

/-- `nu__slot_t`. -/
abbrev Slot : Type := UInt16

/-- `NU_SLOT_NULL`. -/
def slotNull : Slot := 0

/-! ### Slots in bytes -/

/-- `sizeof(nu__slot_t)`. -/
def slotSize : Nat := 2

/-- The slot stored at the offset `o`, the low byte first. -/
def readSlot (data : Nat → UInt8) (o : Nat) : Slot :=
  UInt16.ofNat ((data o).toNat + 256 * (data (o + 1)).toNat)

/-- Store the slot `v` at the offset `o`. -/
def writeSlot (data : Nat → UInt8) (o : Nat) (v : Slot) : Nat → UInt8 :=
  Function.update (Function.update data o (UInt8.ofNat (v.toNat % 256))) (o + 1)
    (UInt8.ofNat (v.toNat / 256))

/-! ### Slot maps -/

/-- `struct nu__slotmap`, with the bytes behind it. -/
structure Slotmap where
  capacity : UInt16
  free : Slot
  objSize : Nat
  data : Nat → UInt8

/-- The loop of `nu__slotmap_init`: the slot at the index `i` links to the one after it. -/
def slotmapInitLoop (objSize : Nat) (data : Nat → UInt8) : Nat → Nat → UInt8
  | 0 => data
  | i + 1 => writeSlot (slotmapInitLoop objSize data i) (objSize * i) (UInt16.ofNat (i + 2))

/-- `nu__slotmap_init`, on an allocated block with the content `memory`. -/
def slotmapInit (memory : Nat → UInt8) (objSize : Nat) (capacity : UInt16) : Slotmap :=
  { capacity, free := 1, objSize, data := slotmapInitLoop objSize memory capacity.toNat }

/-- The offset `slotmap->obj_size * (slot - 1)` of a slot, which is not the null slot: there the
source has an address in front of the data, and the model has none. -/
def Slotmap.offset (slotmap : Slotmap) (slot : Slot) : Nat := slotmap.objSize * (slot.toNat - 1)

/-- `nu__slotmap_get`: the offset of the object, `none` for `NU_NULL`. -/
def slotmapGet (slotmap : Slotmap) (slot : Slot) : Option Nat :=
  if slot = slotNull then none else some (slotmap.offset slot)

/-- The assertion of `nu__slotmap_add`. -/
def slotmapAddGuard (slotmap : Slotmap) : Prop := slotmap.free ≤ slotmap.capacity

instance (slotmap : Slotmap) : Decidable (slotmapAddGuard slotmap) :=
  inferInstanceAs (Decidable (slotmap.free ≤ slotmap.capacity))

/-- `nu__slotmap_add`, behind its assertion. -/
def slotmapAdd (slotmap : Slotmap) : Slot × Slotmap :=
  let free := slotmap.free
  -- the next free slot is stored in the object itself
  (free, { slotmap with free := readSlot slotmap.data (slotmap.offset free) })

/-- `nu__slotmap_remove`. -/
def slotmapRemove (slotmap : Slotmap) (slot : Slot) : Slotmap :=
  if slot = slotNull then slotmap
  else
    { slotmap with
        data := writeSlot slotmap.data (slotmap.offset slot) slotmap.free
        free := slot }

/-- A user's store through the address `o` of an object: its bytes become `content`. -/
def writeObject (slotmap : Slotmap) (o : Nat) (content : Nat → UInt8) : Slotmap :=
  { slotmap with
      data := fun a =>
        if o ≤ a ∧ a < o + slotmap.objSize then content (a - o) else slotmap.data a }

/-! ### Slot lists -/

/-- `struct nu__slotlist_item`. -/
structure SlotlistItem where
  prev : Slot
  next : Slot
  deriving DecidableEq, Repr

/-- `nu__slotlist_t`: the item at each index. -/
abbrev Slotlist : Type := UInt16 → SlotlistItem

/-- `nu__slotlist_init`, on an allocated block with the content `memory`. -/
def slotlistInit (memory : Slotlist) (capacity : UInt16) : Slotlist := fun i =>
  if i < capacity then ⟨slotNull, slotNull⟩ else memory i

/-- Store `f` of the item of `slot` in its place. -/
def Slotlist.modifyItem (slotlist : Slotlist) (slot : Slot) (f : SlotlistItem → SlotlistItem) :
    Slotlist :=
  Function.update slotlist (slot - 1) (f (slotlist (slot - 1)))

/-- `nu__slotlist_add_first`: the items, and `*first`. -/
def slotlistAddFirst (slotlist : Slotlist) (first slot : Slot) : Slotlist × Slot :=
  if slot = slotNull then (slotlist, first)
  else
    let slotlist :=
      if first ≠ slotNull then
        (slotlist.modifyItem first fun item => { item with prev := slot }).modifyItem slot
          fun item => { item with next := first }
      -- the only item of its list
      else slotlist.modifyItem slot fun item => { item with next := slotNull }
    (slotlist.modifyItem slot fun item => { item with prev := slotNull }, slot)

/-- `nu__slotlist_remove`: the items, and `*first`. -/
def slotlistRemove (slotlist : Slotlist) (first slot : Slot) : Slotlist × Slot :=
  if slot = slotNull then (slotlist, first)
  else
    let slotlist :=
      if (slotlist (slot - 1)).prev ≠ slotNull then
        slotlist.modifyItem (slotlist (slot - 1)).prev
          fun item => { item with next := (slotlist (slot - 1)).next }
      else slotlist
    let slotlist :=
      if (slotlist (slot - 1)).next ≠ slotNull then
        slotlist.modifyItem (slotlist (slot - 1)).next
          fun item => { item with prev := (slotlist (slot - 1)).prev }
      else slotlist
    -- the links of the item that was removed stay as they are
    (slotlist, if first = slot then (slotlist (slot - 1)).next else first)

/-- `nu__slotlist_next`. -/
def slotlistNext (slotlist : Slotlist) (slot : Slot) : Slot :=
  if slot = slotNull then slotNull else (slotlist (slot - 1)).next

end Nucleus.Vm
