import Nucleus.Lib.Frame
import Nucleus.Proofs.Scoping
import Nucleus.Spec.Archetypes

/-!
# `Nucleus.Proofs.Frames`: what the two passes leave as it was

`nulang__resolve_symbols` stores references only, and `nulang__resolve_archetypes` stores
archetypes only. `Ast.mapNodes` forgets them: the arena with all references, or all archetypes,
taken out is the same after every run that ends, whatever tree it works on
(`keeps_resolveSymbols`, `keeps_resolveArchetypes`).

`Node.skeleton` forgets both. A tree whose nodes have the skeletons of a module is a module
(`isModule_of_skeleton`).
-/

set_option autoImplicit false

namespace Nucleus.Proofs

open Nucleus.Lib
open Nucleus.Lib.Prog
open Nucleus.Lang
open Nucleus.Vm (TableManager archetypeFind uidn)

/-! ### Arenas without a part of their nodes -/

/-- The arena with `f` of its nodes. -/
def mapNodes (f : Node → Node) (a : Ast) : Ast := { a with nodes := fun i => f (a.nodes i) }

/-- A view that a change keeps does not see it. -/
theorem mapNodes_modifyNode {f g : Node → Node} (h : ∀ n, f (g n) = f n) (a : Ast) (i : NodeId) :
    mapNodes f (a.modifyNode i g) = mapNodes f a := by
  unfold mapNodes Ast.modifyNode
  congr 1
  funext j
  show f (if j = i then g (a.nodes j) else a.nodes j) = f (a.nodes j)
  by_cases hj : j = i
  · rw [if_pos hj, h]
  · rw [if_neg hj]

/-- Arenas with the same view have nodes with the same view. -/
theorem nodes_of_mapNodes {f : Node → Node} {a b : Ast} (h : mapNodes f a = mapNodes f b)
    (i : NodeId) : f (a.nodes i) = f (b.nodes i) := by
  show (mapNodes f a).nodes i = (mapNodes f b).nodes i
  rw [h]

/-- Arenas with the same view have the same root. -/
theorem root_of_mapNodes {f : Node → Node} {a b : Ast} (h : mapNodes f a = mapNodes f b) :
    a.root = b.root := by
  show (mapNodes f a).root = (mapNodes f b).root
  rw [h]

/-- Arenas with the same view have as many nodes. -/
theorem nodeCount_of_mapNodes {f : Node → Node} {a b : Ast} (h : mapNodes f a = mapNodes f b) :
    a.nodeCount = b.nodeCount := by
  show (mapNodes f a).nodeCount = (mapNodes f b).nodeCount
  rw [h]

/-- The walk over the children keeps what its callback keeps. The induction is on the fuel. -/
theorem keeps_astForeachChilds {σ γ : Type} {view : σ → γ} {ast : σ → Ast}
    {callback : NodeId → NodeId → Prog σ Error Unit}
    (h : ∀ id node, Keeps view (callback id node)) (n : Nat) (parent : NodeId) :
    Keeps view (astForeachChilds ast callback n parent) :=
  (keeps_loop (fun _ => (keeps_gets _).bind fun child => keeps_ite (keeps_pure _)
    ((h child child).bind fun _ => keeps_pure _)) n nodeNull).bind fun _ => keeps_pure ()

/-! ### The resolution of symbols -/

/-- The tree of the resolver without references. -/
def withoutReferences (r : SymbolResolver) : Ast := mapNodes (setReference 0) r.ast

/-- A reference that is found changes nothing but itself. -/
theorem keeps_findSymbol (id : NodeId) (name : SourceString) :
    Keeps withoutReferences (findSymbol id name) := by
  refine (keeps_gets _).bind fun symbols => ?_
  split
  · exact keeps_pure _
  · exact Keeps.bind (keeps_modify (by intro; rfl)) fun _ => keeps_fail _

/-- A definition changes the table of the symbols only. -/
theorem keeps_defineSymbol (name : SourceString) (id : NodeId) :
    Keeps withoutReferences (defineSymbol name id) := by
  refine (keeps_attempt (keeps_findSymbol id name)).bind fun found => ?_
  split
  · refine (keeps_gets _).bind fun symbols => ?_
    exact keeps_ite (keeps_modify (by intro; rfl)) keeps_diverge
  · exact Keeps.bind (keeps_modify (by intro; rfl)) fun _ => keeps_fail _

/-- The step at a node changes references only. -/
theorem keeps_resolveNode (id node : NodeId) : Keeps withoutReferences (resolveNode id node) := by
  refine (keeps_gets _).bind fun n => ?_
  split
  · exact keeps_defineSymbol _ _
  · exact keeps_defineSymbol _ _
  · refine (keeps_gets _).bind fun name => (keeps_findSymbol id name).bind fun ref => ?_
    exact keeps_modify fun r => mapNodes_modifyNode (fun n => setReference_setReference n 0 ref) _ _
  · exact keeps_pure _

/-- The end of a scope changes the table of the symbols only. -/
theorem keeps_closeScope (node : NodeId) (size : Nat) :
    Keeps withoutReferences (closeScope node size) := by
  refine (keeps_gets _).bind fun n => ?_
  split
  · exact keeps_modify fun _ => rfl
  · exact keeps_modify fun _ => rfl
  · exact keeps_pure _

/-- The walk below a node changes references only. The induction is on the fuel. -/
theorem keeps_resolveSymbolsScoped (n : Nat) : ∀ id node : NodeId,
    Keeps withoutReferences (resolveSymbolsScoped n id node) := by
  induction n with
  | zero => exact fun _ _ => keeps_diverge
  | succ n ih =>
      intro id node
      refine (keeps_gets _).bind fun size => (keeps_resolveNode id node).bind fun _ => ?_
      exact (keeps_astForeachChilds ih n id).bind fun _ => keeps_closeScope node size

/-- Pass 2 changes references only. -/
theorem keeps_resolveSymbols (fuel : Nat) : Keeps withoutReferences (resolveSymbols fuel) := by
  have hturn : ∀ child, Keeps withoutReferences (resolveFundecl child) := by
    intro child
    refine (keeps_gets _).bind fun child => keeps_ite (keeps_pure _) ?_
    refine (keeps_gets _).bind fun pchild => ?_
    exact keeps_ite ((keeps_defineSymbol _ _).bind fun _ => keeps_pure _) (keeps_pure _)
  exact (keeps_loop hturn fuel nodeNull).bind fun _ =>
    (keeps_gets _).bind fun root => keeps_resolveSymbolsScoped fuel root 0

/-! ### The resolution of archetypes -/

/-- Without its handle the node is the same. -/
@[simp] theorem setArchetype_eraseArchetype (h : Archetype) (n : Node) :
    (setArchetype h n).eraseArchetype = n.eraseArchetype := by
  obtain ⟨type, value⟩ := n
  cases value <;> rfl

/-- The tree of the resolver without archetypes. -/
def withoutArchetypes (r : ArchetypeResolver) : Ast := mapNodes Node.eraseArchetype r.ast

variable {vm : TableManager}

/-- A handle that is found changes nothing but itself. -/
theorem keeps_findArchetype (node : NodeId) (name : SourceString) (span : Span) :
    Keeps withoutArchetypes (findArchetype vm node name span) := by
  unfold findArchetype
  split
  · exact keeps_diverge
  · refine Keeps.bind (keeps_modify ?_) fun _ => keeps_ite (Keeps.bind (keeps_modify ?_) fun _ =>
      keeps_fail _) (keeps_pure _)
    · exact fun r => mapNodes_modifyNode (setArchetype_eraseArchetype _) _ _
    · exact fun r => rfl

/-- The type of a node gets its handle, and nothing else changes. -/
theorem keeps_resolveVartype (node : NodeId) (span : Span) (vartype : Vartype) :
    Keeps withoutArchetypes (resolveVartype vm node span vartype) :=
  keeps_ite (keeps_findArchetype node _ span) (keeps_pure _)

/-- The step at a node changes handles only. -/
theorem keeps_resolveNodeArchetype (node : NodeId) :
    Keeps withoutArchetypes (resolveNodeArchetype vm node) := by
  refine (keeps_gets _).bind fun n => ?_
  split
  · exact keeps_resolveVartype node _ _
  · exact keeps_resolveVartype node _ _
  · exact keeps_resolveVartype node _ _
  · exact keeps_findArchetype node _ _
  · exact keeps_findArchetype node _ _
  · exact keeps_pure _

/-- The walk below a node changes handles only. The induction is on the fuel. -/
theorem keeps_resolveArchetype (n : Nat) : ∀ id node : NodeId,
    Keeps withoutArchetypes (resolveArchetype vm n id node) := by
  induction n with
  | zero => exact fun _ _ => keeps_diverge
  | succ n ih =>
      intro id node
      exact (keeps_resolveNodeArchetype node).bind fun _ => keeps_astForeachChilds ih n id

/-- Pass 3 changes handles only. -/
theorem keeps_resolveArchetypes (fuel : Nat) :
    Keeps withoutArchetypes (resolveArchetypes vm fuel) :=
  (keeps_gets _).bind fun root => keeps_resolveArchetype fuel root 0

/-- The links do not depend on the handles. -/
theorem links_eraseArchetype {a b : Ast}
    (h : mapNodes Node.eraseArchetype a = mapNodes Node.eraseArchetype b) : a.links = b.links := by
  have hlinks : ∀ n : Node, (⟨n.parent, n.firstChild, n.lastChild, n.nextSibling⟩ : Links) =
      ⟨n.eraseArchetype.parent, n.eraseArchetype.firstChild, n.eraseArchetype.lastChild,
        n.eraseArchetype.nextSibling⟩ := by
    intro n
    obtain ⟨type, value⟩ := n
    cases value <;> rfl
  funext i
  unfold Ast.links
  rw [hlinks, hlinks (b.nodes i), nodes_of_mapNodes h i]
/-! ### Modules -/

/-- A node without its reference and its archetype. -/
def skeleton (n : Node) : Node := (setReference 0 n).eraseArchetype

/-- The skeleton of a node has neither its reference nor its handle. -/
theorem skeleton_eq (n : Node) : skeleton n = setReference 0 n.eraseArchetype := by
  obtain ⟨type, value⟩ := n
  cases value <;> rfl

/-- The skeleton keeps the type. -/
theorem skeleton_type (n : Node) : (skeleton n).type = n.type := by
  obtain ⟨type, value⟩ := n
  cases value <;> rfl

/-- The skeleton keeps the name. -/
theorem skeleton_name (n : Node) : (skeleton n).value.name = n.value.name := by
  obtain ⟨type, value⟩ := n
  cases value <;> rfl

/-- The skeleton keeps which nodes are references. -/
theorem skeleton_symref {n m : Node} (h : skeleton m = skeleton n) :
    (∃ ref name, n.value = .symref ref name) → ∃ ref name, m.value = .symref ref name := by
  rintro ⟨ref, name, hvalue⟩
  have hn : (skeleton n).value = .symref 0 name := by
    obtain ⟨type, value⟩ := n
    cases hvalue
    rfl
  rw [← h] at hn
  obtain ⟨type, value⟩ := m
  cases value with
  | symref ref' name' => exact ⟨ref', name', rfl⟩
  | _ => cases hn

/-- The skeleton keeps the links. -/
theorem links_of_skeleton {a b : Ast} (h : ∀ i, skeleton (a.nodes i) = skeleton (b.nodes i)) :
    a.links = b.links := by
  have hlinks : ∀ n : Node, (⟨n.parent, n.firstChild, n.lastChild, n.nextSibling⟩ : Links) =
      ⟨(skeleton n).parent, (skeleton n).firstChild, (skeleton n).lastChild,
        (skeleton n).nextSibling⟩ := by
    intro n
    obtain ⟨type, value⟩ := n
    cases value <;> rfl
  funext i
  unfold Ast.links
  rw [hlinks, hlinks (b.nodes i), h i]

/-- A tree whose nodes have the skeletons of a module is a module. -/
theorem isModule_of_skeleton {a b : Ast} {f : Forest Nat} (hmod : a.IsModule f)
    (hroot : b.root = a.root) (hcount : b.nodeCount = a.nodeCount)
    (h : ∀ i, skeleton (b.nodes i) = skeleton (a.nodes i)) : b.IsModule f where
  root := hroot.trans hmod.root
  type := by rw [← skeleton_type, h, skeleton_type, hmod.type]
  tree := hmod.tree
  links := links_of_skeleton h ▸ hmod.links
  nodup := hmod.nodup
  lt := fun i hi => hcount ▸ hmod.lt i hi
  ne_null := hmod.ne_null
  symref := fun i hi htype => by
    rw [← skeleton_type, h, skeleton_type] at htype
    exact skeleton_symref (h i) (hmod.symref i hi htype)
  named := fun i hi htype => by
    rw [← skeleton_type, h, skeleton_type] at htype
    rw [← skeleton_name, h, skeleton_name]
    exact hmod.named i hi htype

end Nucleus.Proofs
