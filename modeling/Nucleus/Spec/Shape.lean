import Nucleus.Spec.Grammar

/-!
# `Nucleus.Spec.Shape`: the children of a node

`childrenShape t cs`: a node of the type `t` may have children of the types `cs`, in this
order. The later passes index the children of a node by position and rely on it.

`WellShaped` asks it of every node of a piece of syntax, and `Ast.WellShaped` of every node
that the links of an arena reach from its root.
-/

set_option autoImplicit false

namespace Nucleus.Spec

open Nucleus.Lib
open Nucleus.Lang

/-- The types of the statements. -/
def stmtTypes : List NodeType :=
  [.astVardecl, .astFundecl, .astReturn, .astIf, .astWhile, .astAssign, .astCall]

/-- The types of what can be assigned to, and of what has members. -/
def placeTypes : List NodeType := [.astSymref, .astMember]

/-- The types of what can be called. -/
def calleeTypes : List NodeType := [.astSymref, .astMember, .astBuiltin]

/-- Pairs of an expression and a compound, and perhaps one more compound behind them. -/
def branchesShape : List NodeType → Bool
  | [] => true
  | [b] => b = .astCompound
  | e :: b :: rest => isExpr e && b = .astCompound && branchesShape rest

/-- Argument declarations and one compound behind them. -/
def fundeclShape : List NodeType → Bool
  | [] => false
  | [b] => b = .astCompound
  | a :: rest => a = .astArgdecl && fundeclShape rest

/-- The children that a node of the type `t` calls for. The parser builds no node of another
type below the root. -/
def childrenShape (t : NodeType) (cs : List NodeType) : Prop :=
  match t, cs with
  | .astVardecl, [e] => isExpr e = true
  | .astReturn, [e] => isExpr e = true
  | .astUnop, [e] => isExpr e = true
  | .astAssign, [o, e] => o ∈ placeTypes ∧ isExpr e = true
  | .astBinop, [l, r] => isExpr l = true ∧ isExpr r = true
  | .astMember, [o] => o ∈ placeTypes
  | .astCall, c :: args => c ∈ calleeTypes ∧ ∀ a ∈ args, isExpr a = true
  | .astIf, cs => 2 ≤ cs.length ∧ branchesShape cs = true
  | .astWhile, [e, b] => isExpr e = true ∧ b = .astCompound
  | .astFundecl, cs => fundeclShape cs = true
  | .astCompound, cs => ∀ s ∈ cs, s ∈ stmtTypes
  | .astLiteral, [] => True
  | .astSymref, [] => True
  | .astBuiltin, [] => True
  | .astInsert, [] => True
  | .astSingleton, [] => True
  | .astArgdecl, [] => True
  | _, _ => False

/-- The types of the top nodes. -/
def rootTypes (s : Syn) : List NodeType := s.roots.map Kind.type

@[simp] theorem rootTypes_nil : rootTypes .nil = [] := rfl

@[simp] theorem rootTypes_tree (k : Kind) (cs : Syn) : rootTypes (.tree k cs) = [k.type] := rfl

@[simp] theorem rootTypes_leaf (k : Kind) : rootTypes (.leaf k) = [k.type] := rfl

/-- The roots of two pieces side by side. -/
@[simp] theorem rootTypes_append (s t : Syn) :
    rootTypes (s ++ t) = rootTypes s ++ rootTypes t := by
  simp [rootTypes]

/-- Every node has the children that its kind calls for. -/
def WellShaped : Syn → Prop
  | .nil => True
  | .cons k cs next => childrenShape k.type (rootTypes cs) ∧ WellShaped cs ∧ WellShaped next

@[simp] theorem wellShaped_nil : WellShaped .nil := trivial

/-- A tree has the right children and these are well shaped. -/
@[simp] theorem wellShaped_tree (k : Kind) (cs : Syn) :
    WellShaped (.tree k cs) ↔ childrenShape k.type (rootTypes cs) ∧ WellShaped cs := by
  simp [Forest.tree, WellShaped]

@[simp] theorem wellShaped_leaf (k : Kind) :
    WellShaped (.leaf k) ↔ childrenShape k.type [] := by
  simp [Forest.leaf]

/-- Two pieces side by side are well shaped when each is. -/
@[simp] theorem wellShaped_append (s t : Syn) :
    WellShaped (s ++ t) ↔ WellShaped s ∧ WellShaped t := by
  induction s with
  | nil => simp
  | cons k cs next _ ih => simp only [Forest.cons_append, WellShaped, ih, and_assoc]

end Nucleus.Spec

namespace Nucleus.Lang

open Nucleus.Lib
open Nucleus.Spec

/-- The nodes below the root have the children that their types call for, and the children of
the root are statements. The chain of a node's children is the one its links give. -/
structure Ast.WellShaped (ast : Ast) : Prop where
  root : ∃ cs, IsChain nodeNull ast.nextSibling (ast.nodes ast.root).firstChild cs ∧
    ∀ i ∈ cs, (ast.nodes i).type ∈ stmtTypes
  node : ∀ path i, Links.walk nodeNull ast.links ast.root path = some i → i ≠ ast.root →
    ∃ cs, IsChain nodeNull ast.nextSibling (ast.nodes i).firstChild cs ∧
      childrenShape (ast.nodes i).type (cs.map fun c => (ast.nodes c).type)

end Nucleus.Lang
