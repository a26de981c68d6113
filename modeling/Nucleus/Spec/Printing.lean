import Nucleus.Spec.Syntax

/-!
# `Nucleus.Spec.Printing`: lexemes and the printing of expressions

A lexeme is what a token says, without its place in the source. `Expr` is the type of
expression trees, `Expr.tree` is their syntax and `Expr.print` writes one down with every
operator in parentheses.
-/

set_option autoImplicit false

namespace Nucleus.Spec

open Nucleus.Lib
open Nucleus.Vm
open Nucleus.Lang

/-! ### Lexemes -/

/-- What a token says: the value of a name, a primitive or a literal, and the type of any other
token. -/
inductive Lexeme where
  | name (s : SourceString)
  | primitive (p : Primitive)
  | literal (l : Literal)
  | symbol (t : TokenType)
  deriving DecidableEq, Repr

/-- The lexeme of a token. -/
def lexeme (tok : Token) : Lexeme :=
  match tok.type with
  | .tokenIdentifier => .name tok.value.toIdentifier
  | .tokenPrimitive => .primitive tok.value.toPrimitive
  | .tokenLiteral => .literal tok.value.toLiteral
  | t => .symbol t

/-- The token of an infix operator. -/
def binopToken : Binop → TokenType
  | .binopAdd => .tokenAdd
  | .binopSub => .tokenSub
  | .binopMul => .tokenMul
  | .binopDiv => .tokenDiv
  | .binopEqual => .tokenEqual
  | .binopNequal => .tokenNequal
  | .binopLequal => .tokenLequal
  | .binopGequal => .tokenGequal
  | .binopLess => .tokenLess
  | .binopGreater => .tokenGreater
  | .binopAnd => .tokenAnd
  | .binopOr => .tokenOr

/-- The token of a prefix operator. -/
def unopToken : Unop → TokenType
  | .unopNot => .tokenNot
  | .unopNeg => .tokenSub

/-! ### Expressions -/

/-- A symbol, or a member chain over a symbol. -/
inductive Place where
  | symref (name : SourceString)
  | member (object : Place) (name : SourceString)
  deriving DecidableEq, Repr

mutual

/-- An expression tree. -/
inductive Expr where
  | literal (l : Literal)
  | place (d : Place)
  | call (callee : Place) (args : Args)
  | unop (op : Unop) (operand : Expr)
  | binop (op : Binop) (lhs rhs : Expr)

/-- The arguments of a call. -/
inductive Args where
  | nil
  | cons (arg : Expr) (rest : Args)

end

/-- The syntax of a place. -/
def Place.tree : Place → Syn
  | .symref name => .leaf (.symref name)
  | .member object name => .tree (.member name) object.tree

mutual

/-- The syntax of an expression: one tree. -/
def Expr.tree : Expr → Syn
  | .literal l => .leaf (.literal l)
  | .place d => d.tree
  | .call callee args => .tree .call (callee.tree ++ args.trees)
  | .unop op operand => .tree (.unop op) operand.tree
  | .binop op lhs rhs => .tree (.binop op) (lhs.tree ++ rhs.tree)

/-- The syntax of arguments: one tree an argument. -/
def Args.trees : Args → Syn
  | .nil => .nil
  | .cons arg rest => arg.tree ++ rest.trees

end

/-- A place is written with dots. -/
def Place.print : Place → List Lexeme
  | .symref name => [.name name]
  | .member object name => object.print ++ [.symbol .tokenDot, .name name]

mutual

/-- An expression is written with every operator in parentheses. -/
def Expr.print : Expr → List Lexeme
  | .literal l => [.literal l]
  | .place d => d.print
  | .call callee args =>
      callee.print ++ .symbol .tokenLparen :: (args.print ++ [.symbol .tokenRparen])
  | .unop op operand =>
      .symbol .tokenLparen :: .symbol (unopToken op) :: (operand.print ++ [.symbol .tokenRparen])
  | .binop op lhs rhs =>
      .symbol .tokenLparen ::
        (lhs.print ++ .symbol (binopToken op) :: (rhs.print ++ [.symbol .tokenRparen]))

/-- Arguments are written with commas between them. -/
def Args.print : Args → List Lexeme
  | .nil => []
  | .cons arg rest => arg.print ++ rest.printNext

/-- The arguments behind the first one. -/
def Args.printNext : Args → List Lexeme
  | .nil => []
  | .cons arg rest => .symbol .tokenComma :: (arg.print ++ rest.printNext)

end

/-- The expression has no subtraction. -/
def Expr.NoSub (e : Expr) : Prop := Kind.binop .binopSub ∉ e.tree.labels

instance (e : Expr) : Decidable e.NoSub := by
  unfold Expr.NoSub
  infer_instance

end Nucleus.Spec
