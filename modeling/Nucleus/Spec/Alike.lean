import Nucleus.Spec.Grammar
import Nucleus.Spec.Scoping

/-!
# `Nucleus.Spec.Alike`: the same program at different places

A name of a source is a pointer into its text, with all that follows it. `own` cuts off what
follows: it replaces the strings of a value by strings of their own characters. Two sources say
the same when their tokens agree up to that, wherever the tokens stand: `AlikeResults`. White
space, comments and line breaks make no difference to it.

Two arenas hold the same tree when their nodes agree, id by id, in all that the compiler promises of
a node (`Ast.Same`): its type, its links, and the value that its type has. A node of a type without
a value keeps what was in its memory before, and so does the span of some nodes.
-/

set_option autoImplicit false

namespace Nucleus.Lang

open Nucleus.Lib

/-- The string with its own characters only. -/
def SourceString.own (s : SourceString) : SourceString := ⟨s.text, s.text.length⟩

/-- The literal with its own characters only. -/
def Literal.own : Literal → Literal
  | .literalString s => .literalString s.own
  | l => l

/-- The value of a token with its own characters only. -/
def TokenValue.own : TokenValue → TokenValue
  | .literal l => .literal l.own
  | .identifier s => .identifier s.own
  | v => v

/-- The type with the characters of its archetype name only. -/
def Vartype.own (ty : Vartype) : Vartype :=
  { ty with archetypeName := ty.archetypeName.map SourceString.own }

/-- Two tokens say the same. Their names, if they are identifiers, are slices of their sources. -/
structure Token.Alike (t u : Token) : Prop where
  type : t.type = u.type
  value : t.value.own = u.value.own
  slices : t.type = .tokenIdentifier →
    t.value.toIdentifier.IsSlice ∧ u.value.toIdentifier.IsSlice

/-! ### The same tree in two arenas -/

/-- The types whose nodes have a value. -/
def NodeType.hasValue (t : NodeType) : Bool :=
  t ∈ [.astFundecl, .astArgdecl, .astLiteral, .astSymref, .astMember, .astBuiltin, .astVardecl,
    .astBinop, .astUnop, .astInsert, .astSingleton]

/-- Two nodes with the same type, links and value. -/
structure Node.Same (n m : Node) : Prop where
  type : n.type = m.type
  value : n.type.hasValue = true → n.value = m.value
  parent : n.parent = m.parent
  firstChild : n.firstChild = m.firstChild
  lastChild : n.lastChild = m.lastChild
  nextSibling : n.nextSibling = m.nextSibling

/-- Two arenas with the same nodes. -/
structure Ast.Same (a b : Ast) : Prop where
  root : a.root = b.root
  nodeCount : a.nodeCount = b.nodeCount
  nodes : ∀ i < a.nodeCount, (a.nodes i).Same (b.nodes i)

end Nucleus.Lang

namespace Nucleus.Spec

open Nucleus.Lib
open Nucleus.Lang

/-- The node with the characters of its names only. -/
def Kind.own : Kind → Kind
  | .fundecl name ty exported => .fundecl name.own ty.own exported
  | .argdecl name ty => .argdecl name.own ty.own
  | .literal l => .literal l.own
  | .symref name => .symref name.own
  | .member name => .member name.own
  | .vardecl name ty => .vardecl name.own ty.own
  | .insert name => .insert name.own
  | .singleton name => .singleton name.own
  | k => k

/-- The syntax with the characters of its names only. -/
def own (s : Syn) : Syn := s.map Kind.own

/-- Two results of the lexer say the same: two tokens that do, or two errors. A call that never
returns is like no error. -/
inductive AlikeResult : LexResult → LexResult → Prop where
  | ok {t u : Token} : t.Alike u → AlikeResult (.ok t) (.ok u)
  | error {e e' : LexError} : e.code.isNone = e'.code.isNone → AlikeResult (.error e) (.error e')

/-- The results of two sources say the same. -/
abbrev AlikeResults : List LexResult → List LexResult → Prop := List.Forall₂ AlikeResult

/-- The production with another syntax in hand. -/
def Cat.holding (o : Syn) : Cat → Cat
  | .chain _ => .chain o
  | .callOpt _ => .callOpt o
  | .call _ => .call o
  | .climb m _ => .climb m o
  | c => c

@[simp] theorem own_nil : own .nil = .nil := rfl

/-- A first node with its own values, and the rest the same. -/
@[simp] theorem own_cons (k : Kind) (cs next : Syn) :
    own (.cons k cs next) = .cons k.own (own cs) (own next) := rfl

@[simp] theorem own_tree (k : Kind) (cs : Syn) : own (.tree k cs) = .tree k.own (own cs) := rfl

@[simp] theorem own_leaf (k : Kind) : own (.leaf k) = .leaf k.own := rfl

/-- Each piece keeps its own values. -/
@[simp] theorem own_append (s t : Syn) : own (s ++ t) = own s ++ own t :=
  Forest.map_append Kind.own s t

/-- The tree stays, so the size does. -/
@[simp] theorem size_own (s : Syn) : (own s).size = s.size := Forest.size_map Kind.own s

end Nucleus.Spec
