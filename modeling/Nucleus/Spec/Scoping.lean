import Nucleus.Lib.Scope
import Nucleus.Spec.Syntax

/-!
# `Nucleus.Spec.Scoping`: lexical scoping of a syntax tree

What the resolution of symbols is meant to do, in terms of the tree alone. `Ast.Visible` says which
declarations are visible at a node, and `Ast.Scoped` is the condition under which the resolution
succeeds. The forest `f` is the tree of an arena: `Ast.IsModule` ties it to the links.
-/

set_option autoImplicit false

namespace Nucleus.Lang

open Nucleus.Lib

/-- The slice is inside its text, and the text does not end before it. -/
structure SourceString.IsSlice (s : SourceString) : Prop where
  le : s.n ≤ s.p.length
  nul : '\x00' ∉ s.text

/-- The types of the nodes with a name that the resolution reads. -/
def NodeType.isNamed (t : NodeType) : Bool :=
  t ∈ [.astFundecl, .astVardecl, .astArgdecl, .astSymref]

/-- Fewer than `limit` nodes are in `P`. -/
def Fewer (limit : Nat) (P : NodeId → Prop) : Prop :=
  ∀ ds : List NodeId, ds.Nodup → (∀ d ∈ ds, P d) → ds.length < limit

namespace Ast

/-- The arena stores the module `f`: the root is its node 0, the links are those of `f`, every node
has one place, and the nodes with a name have one. -/
structure IsModule (ast : Ast) (f : Forest Nat) : Prop where
  root : ast.root = 0
  type : (ast.nodes 0).type = .astModule
  tree : ∃ cs, f = .tree 0 cs
  links : Links.Holds nodeNull ast.links nodeNull nodeNull f
  nodup : f.labels.Nodup
  lt : ∀ i ∈ f.labels, i < ast.nodeCount
  ne_null : ∀ i ∈ f.labels, i ≠ nodeNull
  symref : ∀ i ∈ f.labels, (ast.nodes i).type = .astSymref →
    ∃ ref name, (ast.nodes i).value = .symref ref name
  named : ∀ i ∈ f.labels, (ast.nodes i).type.isNamed = true → (ast.nodes i).value.name.IsSlice

variable (ast : Ast) (f : Forest Nat)

/-- The declaration of a variable or of an argument. -/
def IsLocal (i : NodeId) : Prop :=
  (ast.nodes i).type = .astVardecl ∨ (ast.nodes i).type = .astArgdecl

/-- The declaration of a function that is a child of the root. -/
def IsGlobal (i : NodeId) : Prop := (ast.nodes i).type = .astFundecl ∧ f.Child ast.root i

/-- A node that the declarations below it do not outlive. -/
def IsScope (i : NodeId) : Prop :=
  (ast.nodes i).type = .astCompound ∨ (ast.nodes i).type = .astFundecl ∨ i = ast.root

/-- Two nodes have the same name. -/
def SameName (i j : NodeId) : Prop :=
  (ast.nodes i).value.name.text = (ast.nodes j).value.name.text

/-- The declaration `d` is visible at `n`: a function everywhere, and a variable or an argument
behind its declaration and below its nearest scope. -/
def Visible (d n : NodeId) : Prop :=
  ast.IsGlobal f d ∨
    (ast.IsLocal d ∧ f.Before d n ∧ ∃ s, f.Nearest ast.IsScope s d ∧ f.Above s n)

/-- Every symbol has a visible declaration of its name, and no declaration has the name of another
one that is visible at it. A function counts as visible at the functions behind it. -/
structure Scoped : Prop where
  symrefs : ∀ n ∈ f.labels, (ast.nodes n).type = .astSymref →
    ∃ d, ast.Visible f d n ∧ ast.SameName d n
  locals : ∀ n ∈ f.labels, ast.IsLocal n → ∀ d, ast.Visible f d n → ¬ ast.SameName d n
  globals : ∀ n ∈ f.labels, ast.IsGlobal f n → ∀ d, ast.IsGlobal f d → f.Before d n →
    ¬ ast.SameName d n

/-- The symbol `n` of the tree, when its node is `node` now, refers to the one visible declaration
of its name. -/
def RefersTo (n : NodeId) (node : Node) : Prop :=
  ∃ d, node.value = .symref d (ast.nodes n).value.name ∧ d ≠ nodeNull ∧ ast.Visible f d n ∧
    ast.SameName d n ∧ ∀ d', ast.Visible f d' n → ast.SameName d' n → d' = d

/-- At no node there are more than `limit` declarations at once: those that are visible at the node,
and the node itself if it is a declaration. -/
def SymbolsFit (limit : Nat) : Prop :=
  ∀ n ∈ f.labels, ∀ ds : List NodeId, ds.Nodup →
    (∀ d ∈ ds, ast.Visible f d n ∨ (d = n ∧ ast.IsLocal n)) → ds.length ≤ limit

/-- No function before `n` has its name. -/
def NewGlobal (n : NodeId) : Prop :=
  ∀ d, ast.IsGlobal f d → f.Before d n → ¬ ast.SameName d n

/-- The resolution goes on behind `n`: a declaration has a name that no visible one has, and a
symbol has the name of a visible one. -/
structure PassesAt (n : NodeId) : Prop where
  declares : ast.IsLocal n → ∀ d, ast.Visible f d n → ¬ ast.SameName d n
  refers : (ast.nodes n).type = .astSymref → ∃ d, ast.Visible f d n ∧ ast.SameName d n

/-- Each declaration that the resolution comes to finds fewer than `limit` others in force. It comes
to the functions first, and it comes to a node when it has passed all that is before it. -/
structure RoomForDeclarations (limit : Nat) : Prop where
  globals : ∀ n, ast.IsGlobal f n →
    (∀ m, ast.IsGlobal f m → m = n ∨ f.Before m n → ast.NewGlobal f m) →
    Fewer limit fun d => ast.IsGlobal f d ∧ f.Before d n
  locals : (∀ m, ast.IsGlobal f m → ast.NewGlobal f m) → ∀ n ∈ f.labels, ast.IsLocal n →
    (∀ m ∈ f.labels, m = n ∨ f.Before m n → ast.PassesAt f m) →
    Fewer limit fun d => ast.Visible f d n

instance : DecidablePred ast.IsLocal := fun i => by
  unfold IsLocal
  infer_instance

instance : DecidablePred ast.IsScope := fun i => by
  unfold IsScope
  infer_instance

end Ast

end Nucleus.Lang
