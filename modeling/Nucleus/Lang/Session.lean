import Nucleus.Lang.Compiler
import Nucleus.Lib.Trace
import Nucleus.Vm.Machine

/-!
# `Nucleus.Lang.Session`: the library in a program

The calls of the library that a program can make: `nu_vm_init` and `nu_vm_create_archetype` of
`vm.h`, `nulang_compiler_init` and `nulang_compile` of `lang/compiler.h`. A session has any number
of virtual machines, and any number of compilers on each of them.

`call` is one call. Its fuel and the value of an uninitialised node id are those of `compile`.
-/

set_option autoImplicit false

namespace Nucleus.Lang

open Nucleus.Lib
open Nucleus.Vm (NuVm Host FieldInfo vmInit vmCreateArchetype)

/-- The program around the library, with the memory that it gives to a compiler. -/
structure Program (E : Type) extends Host E where
  /-- The content of the block of nodes. -/
  nodeMemory : E → NodeId → Node
  /-- The content of a `nulang_compiler_t`. -/
  compilerMemory : E → Compiler

/-- `nulang__ast_init` with its allocation. -/
def astAlloc {E : Type} (program : Program E) (nodeCapacity : UInt32) : Prog E Error Ast :=
  if nodeCapacity = 0 then Prog.diverge
  else do
    let nodes ← Vm.alloc program.toHost (program.sizes.node * nodeCapacity.toNat) .compiler
    if nodes then do
      let memory ← Prog.gets program.nodeMemory
      pure (astInit nodeCapacity memory)
    else Prog.fail .outOfMemory

/-- The virtual machines and the compilers of a program, and its own state. -/
structure Session (E : Type) where
  program : E
  vms : List NuVm
  /-- The compilers, each with the place of its virtual machine. -/
  compilers : List (Nat × Compiler)

/-- A session without a call. -/
def sessionStart {E : Type} (e : E) : Session E := { program := e, vms := [], compilers := [] }

/-- A call of the library. -/
inductive Call where
  | vmInit
  | createArchetype (vm : Nat) (name : List Char) (fields : Nat → FieldInfo) (fieldCount : UInt16)
  | compilerInit (vm : Nat) (nodeCapacity : UInt64)
  | compile (compiler : Nat) (source : Source)

/-- What a call returns and stores for its caller. -/
inductive Answer where
  | vmInit (error : Option Vm.Error)
  | createArchetype (error : Option Vm.Error) (archetype : Archetype)
  | compilerInit (status : Status) (error : Option Error)
  | compile (status : Status) (compiler : Compiler)

section
variable {E : Type} (program : Program E)

/-- `nu_vm_init`. -/
def callVmInit (s : Session E) : Option (Answer × Session E) :=
  match vmInit program.toHost s.program with
  | none => none
  | some (.error error, e) => some (.vmInit (some error), { s with program := e })
  | some (.ok vm, e) => some (.vmInit none, { s with program := e, vms := s.vms ++ [vm] })

/-- `nu_vm_create_archetype`. -/
def callCreateArchetype (s : Session E) (vm : Nat) (name : List Char) (fields : Nat → FieldInfo)
    (fieldCount : UInt16) : Option (Answer × Session E) :=
  s.vms[vm]?.map fun v =>
    let (error, archetype, tables) := vmCreateArchetype v.tables name fields fieldCount
    (.createArchetype error archetype, { s with vms := s.vms.set vm { v with tables } })

/-- `nulang_compiler_init`, which converts the capacity to a `nu_u32_t`. -/
def callCompilerInit (s : Session E) (vm : Nat) (nodeCapacity : UInt64) :
    Option (Answer × Session E) :=
  if vm < s.vms.length then
    match astAlloc program nodeCapacity.toUInt32 s.program with
    | none => none
    | some (.error error, e) =>
        some (.compilerInit .failure (some error), { s with program := e })
    | some (.ok ast, e) =>
        let compiler := { program.compilerMemory s.program with ast, error := none }
        some (.compilerInit .success none,
          { s with program := e, compilers := s.compilers ++ [(vm, compiler)] })
  else none

/-- `nulang_compile`. -/
def callCompile (fuel : Nat) (uninit : NodeId) (s : Session E) (compiler : Nat) (source : Source) :
    Option (Answer × Session E) := do
  let (vm, c) ← s.compilers[compiler]?
  let v ← s.vms[vm]?
  let (status, c) ← compile v.tables fuel uninit c source
  pure (.compile status c, { s with compilers := s.compilers.set compiler (vm, c) })

/-- One call. -/
def call (fuel : Nat) (uninit : NodeId) (c : Call) (s : Session E) : Option (Answer × Session E) :=
  match c with
  | .vmInit => callVmInit program s
  | .createArchetype vm name fields fieldCount => callCreateArchetype s vm name fields fieldCount
  | .compilerInit vm nodeCapacity => callCompilerInit program s vm nodeCapacity
  | .compile compiler source => callCompile fuel uninit s compiler source

/-- Calls one after the other, all with the same fuel. -/
def runCalls (fuel : Nat) (uninit : NodeId) : List Call → Session E →
    Option (List Answer × Session E)
  | [], s => some ([], s)
  | c :: cs, s =>
      (call program fuel uninit c s).bind fun x =>
        (runCalls fuel uninit cs x.2).map fun y => (x.1 :: y.1, y.2)

/-- A call that comes to an end, with its answer. -/
def SessionStep (s : Session E) (c : Call) (a : Answer) (s' : Session E) : Prop :=
  ∃ fuel uninit, call program fuel uninit c s = some (a, s')

/-- A run of calls, with their answers. -/
def SessionRun : List Call → List Answer → Session E → Session E → Prop :=
  Trace (SessionStep program)

end

end Nucleus.Lang
