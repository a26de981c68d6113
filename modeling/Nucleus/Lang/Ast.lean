import Nucleus.Lang.Token
import Nucleus.Lib.Prog

/-!
# `Nucleus.Lang.Ast`: the arena of the syntax tree

The node types, operators and nodes of `lang/ast.h`, and the functions that add nodes to the
arena and link them. The builtin functions that a node can name are those of `lang/builtin.h`: their
argument types are left out, as only the type checker, which the compiler does not call, reads them.

The arena is a function from ids to nodes: its memory has some content everywhere before the
parser writes it. `nodeCount` counts the allocated nodes, and `asserts` is a ghost: it stays
true as long as every `NU_ASSERT` of `nulang__append_child` held since the arena was made or
cleared.
-/

set_option autoImplicit false

namespace Nucleus.Lang

open Nucleus.Lib
open Nucleus.Vm

/-! ### Builtins -/

/-- `nulang__builtin_function_t`. -/
structure BuiltinFunction where
  primitive : Primitive
  name : List Char
  returnType : Primitive
  deriving DecidableEq, Repr

/-- `nulang__builtin_t`: the type is the constructor, the member of the union its argument. -/
inductive Builtin where
  | builtinConstructor (constructor : Primitive)
  | builtinConstant
  | builtinFunction (function : BuiltinFunction)
  deriving DecidableEq, Repr

/-- The table of `nulang__find_builtin_function`. -/
def builtins : List BuiltinFunction :=
  [⟨.vec2, "norm".toList, .fix⟩, ⟨.vec2, "dist".toList, .fix⟩]

/-- `nulang__find_builtin_function`. -/
def findBuiltinFunction (primitive : Primitive) (builtin : SourceString) :
    Option BuiltinFunction :=
  builtins.find? fun f =>
    f.primitive = primitive ∧ sourceStringEquals builtin ⟨f.name, strlen f.name⟩

/-! ### Nodes -/

/-- `nulang__node_type_t`. -/
inductive NodeType where
  | astModule | astImport | astFundecl | astCompound | astArgdecl | astLiteral | astSymref
  | astMember | astBuiltin | astBreak | astContinue | astReturn | astIf | astFor | astWhile
  | astLoop | astVardecl | astCall | astAssign | astBinop | astUnop | astInsert | astDelete
  | astSingleton
  deriving DecidableEq, Repr

/-- `nulang__binop_t`. -/
inductive Binop where
  | binopAdd | binopSub | binopMul | binopDiv | binopEqual | binopNequal | binopLequal
  | binopGequal | binopLess | binopGreater | binopAnd | binopOr
  deriving DecidableEq, Repr

/-- `nulang__unop_t`. -/
inductive Unop where
  | unopNot | unopNeg
  deriving DecidableEq, Repr

/-- `nulang__node_id_t`. The ids the arena gives out are below `node_capacity`, a
`nu_u32_t`, so they never wrap. -/
abbrev NodeId : Type := Nat

/-- `NULANG_NODE_NULL`. -/
def nodeNull : NodeId := 0xffffffff

/-- `nu_archetype_t`. -/
abbrev Archetype : Type := UInt16

/-- `NU_ARCHETYPE_NULL`. -/
def archetypeNull : Archetype := 0

/-- `nulang__vartype_t`. The two archetype fields are stored for an entity type only; `none`
is a field that was not stored. -/
structure Vartype where
  primitive : Primitive
  archetype : Option Archetype
  archetypeName : Option SourceString
  deriving DecidableEq, Repr

/-- `nulang__node_value_t`: the member of the union that was last stored. -/
inductive NodeValue where
  | fundecl (name : SourceString) (returnType : Vartype) (exported : Bool)
  | argdecl (name : SourceString) (type : Vartype)
  | vardecl (name : SourceString) (type : Vartype)
  | literal (l : Literal)
  | symref (node : NodeId) (name : SourceString)
  | binop (op : Binop)
  | unop (op : Unop)
  | insert (archetype : Archetype) (archetypeName : SourceString)
  | singleton (archetype : Archetype) (archetypeName : SourceString)
  | builtin (b : Builtin)
  | member (name : SourceString)
  deriving DecidableEq, Repr

/-- The name in a node's value: `value.vardecl.name`, `value.insert.archetype_name` and the
other members. -/
def NodeValue.name : NodeValue → SourceString
  | .fundecl name _ _ => name
  | .argdecl name _ => name
  | .vardecl name _ => name
  | .symref _ name => name
  | .insert _ name => name
  | .singleton _ name => name
  | .member name => name
  | _ => ⟨[], 0⟩

/-- `nulang__node_t`. -/
structure Node where
  type : NodeType
  value : NodeValue
  span : Span
  parent : NodeId
  firstChild : NodeId
  lastChild : NodeId
  nextSibling : NodeId
  deriving DecidableEq, Repr

/-- `nulang__ast_t`, with the ghost `asserts`. -/
structure Ast where
  root : NodeId
  nodes : NodeId → Node
  nodeCapacity : UInt32
  nodeCount : Nat
  asserts : Bool

namespace Ast

/-- Store `f` of the node `id` at `id`. -/
def modifyNode (ast : Ast) (id : NodeId) (f : Node → Node) : Ast :=
  { ast with nodes := fun i => if i = id then f (ast.nodes i) else ast.nodes i }

/-- The links of a node that is not attached and has no children. -/
def unlinked (node : Node) : Node :=
  { node with
      parent := nodeNull, firstChild := nodeNull, lastChild := nodeNull,
      nextSibling := nodeNull }

end Ast

/-- `nulang__ast_init` on an allocated block with the content `memory`. -/
def astInit (nodeCapacity : UInt32) (memory : NodeId → Node) : Ast :=
  { root := 0
    nodes := fun i =>
      if i = 0 then { Ast.unlinked (memory 0) with type := .astModule } else memory i
    nodeCapacity, nodeCount := 1, asserts := true }

/-- `nulang__ast_clear`. The ghost `asserts` starts again with the arena. -/
def astClear (ast : Ast) : Ast :=
  { (ast.modifyNode 0 Ast.unlinked) with nodeCount := 1, asserts := true }

/-- `nulang__add_node`: the new id, or `none` for `NULANG_ERROR_OUT_OF_NODE`. -/
def addNode (ast : Ast) : Option (NodeId × Ast) :=
  if ast.nodeCount ≥ ast.nodeCapacity.toNat then none
  else
    some (ast.nodeCount,
      -- the type, the value and the span of the node stay what the memory held
      { (ast.modifyNode ast.nodeCount Ast.unlinked) with nodeCount := ast.nodeCount + 1 })

/-- The asserted conditions of `nulang__append_child`. -/
def appendChildAsserts (ast : Ast) (parent child : NodeId) : Bool :=
  child ≠ 0 ∧ parent ≠ child ∧ (parent ≠ nodeNull ∧ child ≠ nodeNull) ∧
    (ast.nodes parent).lastChild ≠ child ∧ (ast.nodes parent).lastChild ≠ parent

/-- `nulang__append_child`. -/
def appendChild (ast : Ast) (parent child : NodeId) : Ast :=
  let lastChild := (ast.nodes parent).lastChild
  let asserts := ast.asserts && appendChildAsserts ast parent child
  let ast :=
    -- the new child goes behind the last one, or it is the first
    if lastChild ≠ nodeNull then
      (ast.modifyNode lastChild fun n => { n with nextSibling := child }).modifyNode parent
        fun n => { n with lastChild := child }
    else
      ast.modifyNode parent fun n => { n with firstChild := child, lastChild := child }
  { (ast.modifyNode child fun n => { n with parent := parent }) with asserts }

/-- `nulang__first_child`: the id it stores, the null id when it returns a null pointer. -/
def firstChild (ast : Ast) (parent : NodeId) : NodeId := (ast.nodes parent).firstChild

/-- `nulang__sibling`: the id it stores, the null id when it returns a null pointer. -/
def sibling (ast : Ast) (node : NodeId) : NodeId := (ast.nodes node).nextSibling

/-- `nulang__iter_childs`: the child after `child`, the first one after the null id. -/
def iterChilds (ast : Ast) (parent child : NodeId) : NodeId :=
  if child = nodeNull then firstChild ast parent else sibling ast child

/-- One turn of the loop of `nulang__ast_foreach_childs`, behind the child `child`. -/
def foreachChild {σ : Type} (ast : σ → Ast) (callback : NodeId → NodeId → Prog σ Error Unit)
    (parent child : NodeId) : Prog σ Error (ForInStep NodeId) := do
  let child ← Prog.gets fun s => iterChilds (ast s) parent child
  if child = nodeNull then pure (.done child)
  else do
    callback child child
    pure (.yield child)

/-- `nulang__ast_foreach_childs`. The arguments of the callback are the id of a child and the node
it points to, which is stored at this id too. -/
def astForeachChilds {σ : Type} (ast : σ → Ast) (callback : NodeId → NodeId → Prog σ Error Unit)
    (n : Nat) (parent : NodeId) : Prog σ Error Unit := do
  let _ ← Prog.loop (foreachChild ast callback parent) n nodeNull
  pure ()

/-- `nulang__is_expr`. -/
def isExpr (t : NodeType) : Bool :=
  t ∈ [.astLiteral, .astSymref, .astMember, .astBuiltin, .astCall, .astInsert, .astSingleton,
    .astBinop, .astUnop]

/-- `nulang__is_binop`. -/
def isBinop (t : TokenType) : Bool :=
  -- `NULANG_TOKEN_SUB` is not among them
  t ∈ [.tokenAdd, .tokenMul, .tokenDiv, .tokenEqual, .tokenNequal, .tokenLequal, .tokenGequal,
    .tokenLess, .tokenGreater, .tokenAnd, .tokenOr]

/-- `nulang__binop_from_token`. -/
def binopFromToken : TokenType → Binop
  | .tokenAdd => .binopAdd
  | .tokenSub => .binopSub
  | .tokenMul => .binopMul
  | .tokenDiv => .binopDiv
  | .tokenEqual => .binopEqual
  | .tokenNequal => .binopNequal
  | .tokenLequal => .binopLequal
  | .tokenGequal => .binopGequal
  | .tokenLess => .binopLess
  | .tokenGreater => .binopGreater
  | .tokenAnd => .binopAnd
  | .tokenOr => .binopOr
  | _ => .binopAdd

/-- `nulang__is_unop`. -/
def isUnop (t : TokenType) : Bool := t ∈ [.tokenSub, .tokenNot]

/-- `nulang__unop_from_token`. -/
def unopFromToken : TokenType → Unop
  | .tokenSub => .unopNeg
  | .tokenNot => .unopNot
  | _ => .unopNeg

/-- `nulang__binop_precedence`. -/
def binopPrecedence : TokenType → Nat
  | .tokenAdd | .tokenSub => 1
  | .tokenMul | .tokenDiv => 2
  | .tokenEqual | .tokenNequal | .tokenLequal | .tokenGequal | .tokenLess | .tokenGreater
  | .tokenAnd | .tokenOr => 3
  | _ => 0

/-- `nulang__binop_is_left_associative`. -/
def binopIsLeftAssociative : TokenType → Bool
  | .tokenAdd | .tokenSub | .tokenMul | .tokenDiv => true
  | _ => false

end Nucleus.Lang
