import Nucleus.Lang.Archetype
import Nucleus.Lang.Symbol
import Nucleus.Spec.Syntax

/-!
# `Nucleus.Spec.Archetypes`: what the resolution of archetypes is for

The nodes that name an archetype, and what the pass over them has to leave in the tree.
`Resolved` is the whole specification. A node without its archetype, `Node.eraseArchetype`, says
that nothing else changed.
-/

set_option autoImplicit false

namespace Nucleus.Lang

open Nucleus.Lib
open Nucleus.Vm (TableManager archetypeFind uidn)

/-- The name of the archetype that a node refers to: in the type that it declares, or in the node
itself. -/
def Node.archetypeName (n : Node) : Option SourceString :=
  match n.type with
  | .astVardecl | .astArgdecl | .astFundecl =>
      if n.value.vartype.primitive = .entity then n.value.vartype.archetypeName else none
  | .astInsert | .astSingleton => some n.value.name
  | _ => none

/-- The archetype that a value stores. -/
def NodeValue.archetype : NodeValue → Option Archetype
  | .vardecl _ type => type.archetype
  | .argdecl _ type => type.archetype
  | .fundecl _ type _ => type.archetype
  | .insert archetype _ => some archetype
  | .singleton archetype _ => some archetype
  | _ => none

/-- A node with no archetype stored. -/
def Node.eraseArchetype (n : Node) : Node :=
  match n.value with
  | .vardecl name type => { n with value := .vardecl name { type with archetype := none } }
  | .argdecl name type => { n with value := .argdecl name { type with archetype := none } }
  | .fundecl name type exported =>
      { n with value := .fundecl name { type with archetype := none } exported }
  | .insert _ name => { n with value := .insert archetypeNull name }
  | .singleton _ name => { n with value := .singleton archetypeNull name }
  | _ => n

/-- The registry finds the archetype of the name that the node has, if it has one. -/
def Node.FindsArchetype (vm : TableManager) (n : Node) : Prop :=
  ∀ name, n.archetypeName = some name →
    archetypeFind vm (uidn name.p name.n) ≠ some archetypeNull

/-- The tree `a'` is the tree `a` with other references in its symbols. -/
structure Ast.Rereferences (a a' : Ast) : Prop where
  root : a'.root = a.root
  nodes : ∀ i, a'.nodes i = a.nodes i ∨ ∃ ref, a'.nodes i = setReference ref (a.nodes i)

/-- What `nulang__resolve_archetypes` does to the tree `f` of the resolver `r`, when it returns
`result` and leaves `r'`. -/
structure Resolved (vm : TableManager) (f : Forest Nat) (r : ArchetypeResolver)
    (result : Except Error Unit) (r' : ArchetypeResolver) : Prop where
  ok_iff : result = .ok () ↔ ∀ i ∈ f.labels, (r.ast.nodes i).FindsArchetype vm
  stores : result = .ok () → ∀ i ∈ f.labels, ∀ name, (r.ast.nodes i).archetypeName = some name →
    ∃ handle, archetypeFind vm (uidn name.p name.n) = some handle ∧ handle ≠ archetypeNull ∧
      (r'.ast.nodes i).value.archetype = some handle
  fails : result ≠ .ok () → result = .error .archetypeNotFound ∧
    ∃ pre i post, f.labels = pre ++ i :: post ∧
      (∀ j ∈ pre, (r.ast.nodes j).FindsArchetype vm) ∧ ¬ (r.ast.nodes i).FindsArchetype vm ∧
      r'.error = { r.error with span := (r.ast.nodes i).span }
  same : ∀ i, (r'.ast.nodes i).eraseArchetype = (r.ast.nodes i).eraseArchetype
  unnamed : ∀ i, (r.ast.nodes i).archetypeName = none → r'.ast.nodes i = r.ast.nodes i
  outside : ∀ i, i ∉ f.labels → r'.ast.nodes i = r.ast.nodes i
  arena : r'.ast = { r.ast with nodes := r'.ast.nodes }

end Nucleus.Lang
