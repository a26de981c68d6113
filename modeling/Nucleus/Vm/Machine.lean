import Nucleus.Lib.Prog
import Nucleus.Vm.Table

/-!
# `Nucleus.Vm.Machine`: the virtual machine

`nu_vm_init` of `vm.h` with what it calls: the allocator of `vm/allocator.h`, the properties of
`vm/property.h`, the cartridge of `vm/cartridge.h`, the table manager and the resource manager of
`vm/resource.h`.

The allocator and the cartridge are callbacks of the program around the library, the `Host`. What
they answer may depend on all that happened before, which is the host's own state `E`. A block that
the allocator gives has some content, and so has a local that is not initialised. A failed assertion
gives no result.
-/

set_option autoImplicit false

namespace Nucleus.Vm

open Nucleus.Lib

/-- `nu_memory_usage_t`. -/
inductive MemoryUsage where
  | core | table | renderer | compiler
  deriving DecidableEq, Repr

/-- `nu_cartdata_type_t`. -/
inductive CartdataType where
  | vmProperties | bundle | resource | unknown
  deriving DecidableEq, Repr

/-- `nu_vm_properties_t`. -/
structure VmProperties where
  tableCapacity : UInt16
  fieldCapacity : UInt16
  chunkCapacity : UInt16
  bytecodeCapacity : UInt32
  resourceCapacity : UInt32
  baseBundle : Ident

/-- The sizes of the structures that are allocated. -/
structure Sizes where
  vm : Nat
  archetypeEntry : Nat
  fieldEntry : Nat
  chunkEntry : Nat
  resourceEntry : Nat
  node : Nat

/-- The program around the library: `nu_allocator_api_t` and `nu_cartridge_api_t`, the sizes of the
structures, and what is in its memory. -/
structure Host (E : Type) where
  /-- Whether there is a block of the size and the alignment. -/
  callback : Nat → Nat → MemoryUsage → E → Bool × E
  /-- The error, and the properties that are stored. -/
  load : CartdataType → VmProperties → E → (Option Error × VmProperties) × E
  sizes : Sizes
  /-- The content of the blocks of a table manager. -/
  tableMemory : E → TableMemory
  /-- The content of a local. -/
  properties : E → VmProperties

/-- `nu_vm_properties_default`. -/
def vmPropertiesDefault (props : VmProperties) : VmProperties :=
  { tableCapacity := 64
    fieldCapacity := 512
    chunkCapacity := 128
    bytecodeCapacity := 1024
    resourceCapacity := 512
    baseBundle := identSetStr props.baseBundle "main".toList }

/-- `nu__cartridge_load_default`. -/
def cartridgeLoadDefault (type : CartdataType) (props : VmProperties) :
    Option Error × VmProperties :=
  match type with
  | .vmProperties => (none, vmPropertiesDefault props)
  | .bundle => (none, props)
  | .resource => (none, props)
  | .unknown => (some .resourceNotFound, props)

/-- `nu__resource_manager_t`, without the entries. -/
structure ResourceManager where
  capacity : UInt32
  count : UInt32

/-- `struct nu__vm`. The allocator is the host's, and nothing stores the renderer and the
properties. -/
structure NuVm where
  tables : TableManager
  resources : ResourceManager

section
variable {E ε : Type}

/-- `callback(size, align, usage, userdata)`. -/
def allocatorCallback (host : Host E) (size align : Nat) (usage : MemoryUsage) : Prog E ε Bool :=
  fun e => some (.ok (host.callback size align usage e).1, (host.callback size align usage e).2)

/-- `nu__alloc`. -/
def alloc (host : Host E) (size : Nat) (usage : MemoryUsage) : Prog E ε Bool :=
  if size = 0 then Prog.diverge else allocatorCallback host size 16 usage

/-- `NU_CHECK` of a block. -/
def checkBlock (block : Bool) : Prog E Error Unit :=
  if block then pure () else Prog.fail .outOfMemory

/-- `nu__table_manager_init` with its allocations. -/
def tableManagerAlloc (host : Host E) (archetypeCapacity fieldCapacity chunkCapacity : UInt16) :
    Prog E Error TableManager :=
  if archetypeCapacity = 0 ∨ fieldCapacity = 0 ∨ chunkCapacity = 0 then Prog.diverge
  else do
    let archetypes ← alloc host (host.sizes.archetypeEntry * archetypeCapacity.toNat) .table
    checkBlock archetypes
    let fields ← alloc host (host.sizes.fieldEntry * fieldCapacity.toNat) .table
    checkBlock fields
    let chunks ← alloc host (host.sizes.chunkEntry * chunkCapacity.toNat) .table
    checkBlock chunks
    let data ← alloc host (chunkSize * chunkCapacity.toNat) .table
    checkBlock data
    let memory ← Prog.gets host.tableMemory
    pure (tableManagerInit archetypeCapacity fieldCapacity chunkCapacity memory)

/-- `nu__resource_manager_init`. -/
def resourceManagerInit (host : Host E) (resourceCapacity : UInt32) :
    Prog E Error ResourceManager := do
  let resources ← alloc host (host.sizes.resourceEntry * resourceCapacity.toNat) .core
  checkBlock resources
  pure { capacity := resourceCapacity, count := 0 }

/-- `info->cartridge.load` of the properties, into a local. -/
def loadProperties (host : Host E) : Prog E Error VmProperties := fun e =>
  let answer := host.load .vmProperties (host.properties e) e
  match answer.1.1 with
  | some error => some (.error error, answer.2)
  | none => some (.ok answer.1.2, answer.2)

/-- `nu_vm_init`. -/
def vmInit (host : Host E) : Prog E Error NuVm := do
  let data ← allocatorCallback host host.sizes.vm 16 .core
  checkBlock data
  let properties ← loadProperties host
  let tables ← tableManagerAlloc host properties.tableCapacity properties.fieldCapacity
    properties.chunkCapacity
  let resources ← resourceManagerInit host properties.resourceCapacity
  pure { tables, resources }

end

end Nucleus.Vm
