import Nucleus.Lang.Parser
import Nucleus.Vm.Table

/-!
# `Nucleus.Lang.Archetype`: the resolution of archetypes

The pass of `lang/analyzer/archetype.h`: it looks the names of entity types up in the registry
of the VM and stores the archetypes into the nodes. `vm` is the table manager of the VM, which
the pass only reads.
-/

set_option autoImplicit false

namespace Nucleus.Lang

open Nucleus.Lib
open Nucleus.Vm (TableManager archetypeFind uidn)

/-- `nulang__archetype_resolver_t`, with the tree it works on. -/
structure ArchetypeResolver where
  ast : Ast
  error : ErrorData

/-- A function of the resolver. -/
abbrev ArchetypeM : Type → Type := Prog ArchetypeResolver Error

/-- `node.value.vardecl.type`, or the type of another declaration. -/
def NodeValue.vartype : NodeValue → Vartype
  | .vardecl _ type => type
  | .argdecl _ type => type
  | .fundecl _ returnType _ => returnType
  | _ => ⟨.unknown, none, none⟩

/-- Store into the archetype of a node: the one of the type that it declares, or of the node
itself. -/
def setArchetype (archetype : Archetype) (n : Node) : Node :=
  match n.value with
  | .vardecl name type => { n with value := .vardecl name { type with archetype := archetype } }
  | .argdecl name type => { n with value := .argdecl name { type with archetype := archetype } }
  | .fundecl name type exported =>
      { n with value := .fundecl name { type with archetype := archetype } exported }
  | .insert _ name => { n with value := .insert archetype name }
  | .singleton _ name => { n with value := .singleton archetype name }
  | _ => n

/-- `nulang__find_archetype` on the archetype of `node`, which it stores before its check. -/
def findArchetype (vm : TableManager) (node : NodeId) (name : SourceString) (span : Span) :
    ArchetypeM Unit :=
  match archetypeFind vm (uidn name.p name.n) with
  | none => Prog.diverge
  | some archetype => do
      -- the handle is stored whether it is null or not
      Prog.modify fun r => { r with ast := r.ast.modifyNode node (setArchetype archetype) }
      if archetype = archetypeNull then do
        Prog.modify fun r => { r with error := { r.error with span := span } }
        Prog.fail .archetypeNotFound
      else pure ()

/-- `nulang__resolve_vartype`. -/
def resolveVartype (vm : TableManager) (node : NodeId) (span : Span) (vartype : Vartype) :
    ArchetypeM Unit :=
  if vartype.primitive = .entity then
    findArchetype vm node (vartype.archetypeName.getD ⟨[], 0⟩) span
  else pure ()

/-- The switch of `nulang__resolve_archetype`. -/
def resolveNodeArchetype (vm : TableManager) (node : NodeId) : ArchetypeM Unit := do
  let n ← Prog.gets fun r => r.ast.nodes node
  match n.type with
  | .astVardecl => resolveVartype vm node n.span n.value.vartype
  | .astArgdecl => resolveVartype vm node n.span n.value.vartype
  | .astFundecl => resolveVartype vm node n.span n.value.vartype
  | .astInsert => findArchetype vm node n.value.name n.span
  | .astSingleton => findArchetype vm node n.value.name n.span
  | _ => pure ()

/-- `nulang__resolve_archetype`, with `fuel` levels of recursion. -/
def resolveArchetype (vm : TableManager) : Nat → NodeId → NodeId → ArchetypeM Unit
  | 0, _, _ => Prog.diverge
  | n + 1, id, node => do
      resolveNodeArchetype vm node
      astForeachChilds (·.ast) (resolveArchetype vm n) n id

/-- `nulang__resolve_archetypes`. -/
def resolveArchetypes (vm : TableManager) (fuel : Nat) : ArchetypeM Unit := do
  let root ← Prog.gets (·.ast.root)
  resolveArchetype vm fuel root 0

end Nucleus.Lang
