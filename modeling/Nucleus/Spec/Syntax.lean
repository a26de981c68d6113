import Nucleus.Lang.Ast
import Nucleus.Lib.Links

/-!
# `Nucleus.Spec.Syntax`: abstract syntax and the tree an arena holds

`Kind` is what a node of the syntax tree says by itself: its type with the part of the value
union that the type uses, without the node and the archetype that the later passes resolve.
A piece of syntax (`Syn`) is a forest of kinds.

`Node.kind` reads the kind of a stored node, and `Ast.forestAt` walks an arena through its
first-child and next-sibling links. `Ast.syntaxOf` is the syntax below the root.
-/

set_option autoImplicit false

namespace Nucleus.Spec

open Nucleus.Lib
open Nucleus.Lang

/-- What a node says: its type and the data of that type. -/
inductive Kind where
  | module
  | fundecl (name : SourceString) (returnType : Vartype) (exported : Bool)
  | compound
  | argdecl (name : SourceString) (type : Vartype)
  | literal (l : Literal)
  | symref (name : SourceString)
  | member (name : SourceString)
  | builtin (b : Builtin)
  | returnStmt
  | ifStmt
  | whileStmt
  | vardecl (name : SourceString) (type : Vartype)
  | call
  | assign
  | binop (op : Binop)
  | unop (op : Unop)
  | insert (name : SourceString)
  | singleton (name : SourceString)
  deriving DecidableEq, Repr

/-- The node type of a kind. -/
def Kind.type : Kind → NodeType
  | .module => .astModule
  | .fundecl _ _ _ => .astFundecl
  | .compound => .astCompound
  | .argdecl _ _ => .astArgdecl
  | .literal _ => .astLiteral
  | .symref _ => .astSymref
  | .member _ => .astMember
  | .builtin _ => .astBuiltin
  | .returnStmt => .astReturn
  | .ifStmt => .astIf
  | .whileStmt => .astWhile
  | .vardecl _ _ => .astVardecl
  | .call => .astCall
  | .assign => .astAssign
  | .binop _ => .astBinop
  | .unop _ => .astUnop
  | .insert _ => .astInsert
  | .singleton _ => .astSingleton

/-- Abstract syntax: an ordered forest of kinds. -/
abbrev Syn : Type := Forest Kind

/-- Abstract syntax with the id of every node. -/
abbrev Located : Type := Forest (NodeId × Kind)

/-- The ids of a piece of syntax. -/
def ids (t : Located) : Forest Nat := t.map Prod.fst

/-- The syntax without the ids. -/
def syn (t : Located) : Syn := t.map Prod.snd

@[simp] theorem ids_nil : ids .nil = .nil := rfl

@[simp] theorem ids_cons (x : NodeId × Kind) (cs next : Located) :
    ids (.cons x cs next) = .cons x.1 (ids cs) (ids next) := rfl

@[simp] theorem ids_tree (x : NodeId × Kind) (cs : Located) :
    ids (.tree x cs) = .tree x.1 (ids cs) := rfl

/-- The identifiers of two trees side by side. -/
@[simp] theorem ids_append (t u : Located) : ids (t ++ u) = ids t ++ ids u :=
  Forest.map_append Prod.fst t u

@[simp] theorem syn_nil : syn .nil = .nil := rfl

@[simp] theorem syn_cons (x : NodeId × Kind) (cs next : Located) :
    syn (.cons x cs next) = .cons x.2 (syn cs) (syn next) := rfl

@[simp] theorem syn_tree (x : NodeId × Kind) (cs : Located) :
    syn (.tree x cs) = .tree x.2 (syn cs) := rfl

/-- The syntax of two trees side by side. -/
@[simp] theorem syn_append (t u : Located) : syn (t ++ u) = syn t ++ syn u :=
  Forest.map_append Prod.snd t u

/-- The syntax forgets where the nodes are, not how many there are. -/
@[simp] theorem size_syn (t : Located) : (syn t).size = t.size := Forest.size_map _ _

/-- There is one identifier for each node. -/
theorem length_ids (t : Located) : (ids t).labels.length = t.size := by
  rw [Forest.length_labels, ids, Forest.size_map]

end Nucleus.Spec

namespace Nucleus.Lang

open Nucleus.Lib
open Nucleus.Spec

/-- The kind of a stored node. A node whose type and value do not belong together, which the
parser does not build, counts as a module. -/
def Node.kind (node : Node) : Kind :=
  match node.type, node.value with
  | .astFundecl, .fundecl name returnType exported => .fundecl name returnType exported
  | .astCompound, _ => .compound
  | .astArgdecl, .argdecl name type => .argdecl name type
  | .astLiteral, .literal l => .literal l
  | .astSymref, .symref _ name => .symref name
  | .astMember, .member name => .member name
  | .astBuiltin, .builtin b => .builtin b
  | .astReturn, _ => .returnStmt
  | .astIf, _ => .ifStmt
  | .astWhile, _ => .whileStmt
  | .astVardecl, .vardecl name type => .vardecl name type
  | .astCall, _ => .call
  | .astAssign, _ => .assign
  | .astBinop, .binop op => .binop op
  | .astUnop, .unop op => .unop op
  | .astInsert, .insert _ name => .insert name
  | .astSingleton, .singleton _ name => .singleton name
  | _, _ => .module

/-- Outside modules the kind of a node has the node's type. -/
theorem Node.type_of_kind {node : Node} {k : Kind} (h : node.kind = k) (hk : k ≠ .module) :
    node.type = k.type := by
  subst h
  revert hk
  unfold Node.kind
  split
  all_goals
    intro hk
    first
      | assumption
      | exact absurd rfl hk

/-- A node of the kind of a builtin stores it. -/
theorem Node.value_of_kind_builtin {node : Node} {b : Builtin} (h : node.kind = .builtin b) :
    node.value = .builtin b := by
  unfold Node.kind at h
  split at h <;> simp_all

/-- The links of a node of the arena. -/
def Ast.links (ast : Ast) (id : NodeId) : Links :=
  ⟨(ast.nodes id).parent, (ast.nodes id).firstChild, (ast.nodes id).lastChild,
    (ast.nodes id).nextSibling⟩

/-- The next sibling of a node. -/
def Ast.nextSibling (ast : Ast) (id : NodeId) : NodeId := (ast.nodes id).nextSibling

/-- The forest of ids that starts at `id`: `id` with its children and its later siblings. The
fuel bounds the length of a path. -/
def Ast.forestAt (ast : Ast) : Nat → NodeId → Forest Nat
  | 0, _ => .nil
  | fuel + 1, id =>
      if id = nodeNull then .nil
      else
        .cons id (ast.forestAt fuel (ast.nodes id).firstChild)
          (ast.forestAt fuel (ast.nodes id).nextSibling)

/-- The syntax at `id` and its later siblings, as the arena stores it. -/
def Ast.syntaxAt (ast : Ast) (id : NodeId) : Syn :=
  (ast.forestAt ast.nodeCount id).map fun id => (ast.nodes id).kind

/-- The syntax below the root of the arena. -/
def Ast.syntaxOf (ast : Ast) : Syn := ast.syntaxAt (ast.nodes ast.root).firstChild

/-- A forest that the arena stores is the one the walk finds. -/
theorem Ast.forestAt_eq {ast : Ast} {f : Forest Nat} {p : NodeId}
    (h : Links.Holds nodeNull ast.links p nodeNull f) (hnull : nodeNull ∉ f.labels) {fuel : Nat}
    (hfuel : f.size ≤ fuel) : ast.forestAt fuel (f.firstId nodeNull) = f := by
  induction f generalizing p fuel with
  | nil => cases fuel <;> simp [Ast.forestAt]
  | cons a cs next ihc ihn =>
      obtain ⟨ha, hc, hn⟩ := h
      simp only [Forest.labels_cons, List.mem_cons, List.mem_append, not_or] at hnull
      obtain ⟨fuel, rfl⟩ : ∃ m, fuel = m + 1 := ⟨fuel - 1, by simp at hfuel; omega⟩
      rw [Forest.size_cons] at hfuel
      have hfirst : (ast.nodes a).firstChild = cs.firstId nodeNull :=
        congrArg Links.firstChild ha
      have hnext : (ast.nodes a).nextSibling = next.firstId nodeNull :=
        congrArg Links.nextSibling ha
      rw [Forest.firstId_cons, Ast.forestAt, if_neg (Ne.symm hnull.1), hfirst, hnext,
        ihc hc hnull.2.1 (by omega), ihn hn hnull.2.2 (by omega)]

end Nucleus.Lang
