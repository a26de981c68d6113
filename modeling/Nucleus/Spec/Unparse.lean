import Nucleus.Lang.Lexer
import Nucleus.Spec.Printing

/-!
# `Nucleus.Spec.Unparse`: the lexemes of a piece of syntax

`unparse` writes abstract syntax back as lexemes, without the parentheses and the commas, which
the syntax does not keep. `content` is what a list of lexer results says without them. Names are
compared as texts: a lexeme of either holds a name without what follows it in its source.

`Balanced` says that the parentheses of a list of results match, and `InsertsClosed` that each
`insert` and `singleton` has its `( name )`.
-/

set_option autoImplicit false

namespace Nucleus.Spec

open Nucleus.Lib
open Nucleus.Vm
open Nucleus.Lang

/-! ### Unparsing -/

/-- The lexeme of a name with the characters `s`. -/
def nameLexeme (s : List Char) : Lexeme := .name ⟨s, s.length⟩

/-- The type of a declaration. A declaration without one has the unknown primitive. -/
def unparseType (ty : Vartype) : List Lexeme :=
  match ty.archetypeName with
  | some name => [.symbol .tokenColon, nameLexeme name.text]
  | none =>
      if ty.primitive = .unknown then [] else [.symbol .tokenColon, .primitive ty.primitive]

/-- The parameters of a function with their commas left out, its type and its body. -/
def unparseFunction (ty : Vartype) : List (List Lexeme) → List Lexeme
  | [] => []
  | [body] => unparseType ty ++ body
  | param :: rest => param ++ unparseFunction ty rest

/-- The branches of an `if` behind the first one. -/
def unparseBranches : List (List Lexeme) → List Lexeme
  | [] => []
  | [body] => .symbol .tokenElse :: body
  | cond :: body :: rest =>
      .symbol .tokenElif :: (cond ++ .symbol .tokenThen :: (body ++ unparseBranches rest))

/-- A node whose children are written `ps`. -/
def unparseNode (k : Kind) (ps : List (List Lexeme)) : List Lexeme :=
  match k, ps with
  | .fundecl name ty _, ps =>
      .symbol .tokenFunction :: nameLexeme name.text ::
        (unparseFunction ty ps ++ [.symbol .tokenEnd])
  | .argdecl name ty, _ => nameLexeme name.text :: unparseType ty
  | .literal l, _ => [.literal l]
  | .symref name, _ => [nameLexeme name.text]
  | .member name, ps => ps.flatten ++ [.symbol .tokenDot, nameLexeme name.text]
  | .builtin (.builtinConstructor p), _ => [.primitive p]
  | .builtin .builtinConstant, _ => []
  | .builtin (.builtinFunction f), _ =>
      [.primitive f.primitive, .symbol .tokenDot, nameLexeme f.name]
  | .returnStmt, ps => .symbol .tokenReturn :: ps.flatten
  | .ifStmt, cond :: body :: rest =>
      .symbol .tokenIf :: (cond ++ .symbol .tokenThen ::
        (body ++ (unparseBranches rest ++ [.symbol .tokenEnd])))
  | .whileStmt, [cond, body] =>
      .symbol .tokenWhile :: (cond ++ .symbol .tokenDo :: (body ++ [.symbol .tokenEnd]))
  | .vardecl name ty, ps =>
      .symbol .tokenLet :: nameLexeme name.text ::
        (unparseType ty ++ .symbol .tokenAssign :: ps.flatten)
  | .assign, [object, value] => object ++ .symbol .tokenAssign :: value
  | .binop op, [lhs, rhs] => lhs ++ .symbol (binopToken op) :: rhs
  | .unop op, ps => .symbol (unopToken op) :: ps.flatten
  | .insert name, _ => [.symbol .tokenInsert, nameLexeme name.text]
  | .singleton name, _ => [.symbol .tokenSingleton, nameLexeme name.text]
  | _, ps => ps.flatten

section
variable {name : SourceString} {ty : Vartype} {l body : List Lexeme} {ps : List (List Lexeme)}

@[simp] theorem unparseNode_fundecl {exported : Bool} :
    unparseNode (.fundecl name ty exported) ps =
      .symbol .tokenFunction :: nameLexeme name.text ::
        (unparseFunction ty ps ++ [.symbol .tokenEnd]) := rfl

@[simp] theorem unparseNode_argdecl :
    unparseNode (.argdecl name ty) ps = nameLexeme name.text :: unparseType ty := rfl

@[simp] theorem unparseNode_symref :
    unparseNode (.symref name) ps = [nameLexeme name.text] := rfl

@[simp] theorem unparseNode_member :
    unparseNode (.member name) ps =
      ps.flatten ++ [.symbol .tokenDot, nameLexeme name.text] := rfl

@[simp] theorem unparseNode_constructor {p : Primitive} :
    unparseNode (.builtin (.builtinConstructor p)) ps = [.primitive p] := rfl

@[simp] theorem unparseNode_function {f : BuiltinFunction} :
    unparseNode (.builtin (.builtinFunction f)) ps =
      [.primitive f.primitive, .symbol .tokenDot, nameLexeme f.name] := rfl

@[simp] theorem unparseNode_returnStmt :
    unparseNode .returnStmt ps = .symbol .tokenReturn :: ps.flatten := rfl

@[simp] theorem unparseNode_ifStmt :
    unparseNode .ifStmt (l :: body :: ps) =
      .symbol .tokenIf :: (l ++ .symbol .tokenThen ::
        (body ++ (unparseBranches ps ++ [.symbol .tokenEnd]))) := rfl

@[simp] theorem unparseNode_whileStmt :
    unparseNode .whileStmt [l, body] =
      .symbol .tokenWhile :: (l ++ .symbol .tokenDo :: (body ++ [.symbol .tokenEnd])) := rfl

@[simp] theorem unparseNode_vardecl :
    unparseNode (.vardecl name ty) ps =
      .symbol .tokenLet :: nameLexeme name.text ::
        (unparseType ty ++ .symbol .tokenAssign :: ps.flatten) := rfl

@[simp] theorem unparseNode_assign :
    unparseNode .assign [l, body] = l ++ .symbol .tokenAssign :: body := rfl

@[simp] theorem unparseNode_binop {op : Binop} :
    unparseNode (.binop op) [l, body] = l ++ .symbol (binopToken op) :: body := rfl

@[simp] theorem unparseNode_unop {op : Unop} :
    unparseNode (.unop op) ps = .symbol (unopToken op) :: ps.flatten := rfl

@[simp] theorem unparseNode_call : unparseNode .call ps = ps.flatten := rfl

@[simp] theorem unparseNode_compound : unparseNode .compound ps = ps.flatten := rfl

end

/-- The trees of a piece of syntax, each as its lexemes. -/
def pieces : Syn → List (List Lexeme)
  | .nil => []
  | .cons k cs next => unparseNode k (pieces cs) :: pieces next

/-- The lexemes of a piece of syntax. -/
def unparse (s : Syn) : List Lexeme := (pieces s).flatten

@[simp] theorem pieces_nil : pieces .nil = [] := rfl

@[simp] theorem pieces_tree (k : Kind) (cs : Syn) :
    pieces (.tree k cs) = [unparseNode k (pieces cs)] := rfl

@[simp] theorem pieces_leaf (k : Kind) : pieces (.leaf k) = [unparseNode k []] := rfl

@[simp] theorem pieces_append (s t : Syn) : pieces (s ++ t) = pieces s ++ pieces t := by
  induction s with
  | nil => rfl
  | cons k cs next _ ih => rw [Forest.cons_append, pieces, ih, pieces, List.cons_append]

/-! ### What the results of a source say -/

/-- A parenthesis or a comma. -/
def isMark (t : TokenType) : Bool := t = .tokenLparen ∨ t = .tokenRparen ∨ t = .tokenComma

/-- The lexeme of a token, with a name cut off behind its last character. -/
def ownLexeme (tok : Token) : Lexeme :=
  match lexeme tok with
  | .name s => nameLexeme s.text
  | l => l

/-- What a result says, parentheses and commas left out. -/
def resultContent : LexResult → List Lexeme
  | .ok tok => if isMark tok.type then [] else [ownLexeme tok]
  | .error _ => []

/-- What a list of results says, parentheses and commas left out. -/
def content (rs : List LexResult) : List Lexeme := rs.flatMap resultContent

/-- A result is a token of the type `t`. -/
def isToken (t : TokenType) : LexResult → Bool
  | .ok tok => tok.type = t
  | .error _ => false

/-- The number of open parentheses behind the results `rs`, `d` of them open before; none if a
closing one has no partner. -/
def depthAfter : Nat → List LexResult → Option Nat
  | d, [] => some d
  | d, r :: rs =>
      if isToken .tokenLparen r then depthAfter (d + 1) rs
      else if isToken .tokenRparen r then
        match d with
        | 0 => none
        | d + 1 => depthAfter d rs
      else depthAfter d rs

/-- Each parenthesis has its partner, properly nested. -/
def Balanced (rs : List LexResult) : Prop := depthAfter 0 rs = some 0

instance (rs : List LexResult) : Decidable (Balanced rs) :=
  inferInstanceAs (Decidable (depthAfter 0 rs = some 0))

/-- `insert` or `singleton`. -/
def isInsert (r : LexResult) : Bool :=
  isToken .tokenInsert r || isToken .tokenSingleton r

/-- The results begin with `( name )`. -/
def startsWithParenName : List LexResult → Bool
  | l :: n :: r :: _ =>
      isToken .tokenLparen l && isToken .tokenIdentifier n &&
        isToken .tokenRparen r
  | _ => false

/-- Behind each `insert` and each `singleton` stands `( name )`. -/
def InsertsClosed : List LexResult → Prop
  | [] => True
  | r :: rs => (isInsert r = true → startsWithParenName rs = true) ∧ InsertsClosed rs

instance instDecidableInsertsClosed : (rs : List LexResult) → Decidable (InsertsClosed rs)
  | [] => isTrue trivial
  | r :: rs =>
      have := instDecidableInsertsClosed rs
      inferInstanceAs (Decidable ((isInsert r = true → startsWithParenName rs = true) ∧ _))

/-- The source is what the syntax says: it has no lexical error, its parentheses match, and its
other tokens but the commas are those of the syntax. -/
structure SaidBy (rs : List LexResult) (s : Syn) : Prop where
  tokens : ∀ r ∈ rs, ∃ tok, r = .ok tok
  balanced : Balanced rs
  content : content rs = unparse s

end Nucleus.Spec
