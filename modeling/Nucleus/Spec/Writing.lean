import Nucleus.Spec.Texts
import Nucleus.Spec.Unparse

/-!
# `Nucleus.Spec.Writing`: writing a tree down

`write` is a way to write abstract syntax as lexemes that says all of it: with parentheses around
every operator, commas between parameters and arguments, and `: type` where a declaration has one.
It is stated for any syntax, and means something for the syntax of a program.

`Lexeme.token` is a token that says a lexeme, at no place in particular, and `Spells` relates what
is written to the lexeme that it says.
-/

set_option autoImplicit false

namespace Nucleus.Spec

open Nucleus.Lib
open Nucleus.Vm
open Nucleus.Lang

/-! ### Lexemes as tokens -/

/-- No place in a source. -/
def nowhere : Span := ⟨⟨0, 0, 0⟩, ⟨0, 0, 0⟩⟩

/-- A token that says the lexeme. -/
def Lexeme.token : Lexeme → Token
  | .name s => ⟨.tokenIdentifier, nowhere, .identifier s⟩
  | .primitive p => ⟨.tokenPrimitive, nowhere, .primitive p⟩
  | .literal l => ⟨.tokenLiteral, nowhere, .literal l⟩
  | .symbol t => ⟨t, nowhere, .none⟩

@[simp] theorem type_symbol (t : TokenType) : (Lexeme.symbol t).token.type = t := rfl

@[simp] theorem toIdentifier_name (s : SourceString) :
    (Lexeme.name s).token.value.toIdentifier = s := rfl

/-- The results of a source that says the lexemes. -/
def said (ls : List Lexeme) : List LexResult := ls.map fun l => .ok l.token

@[simp] theorem said_nil : said [] = [] := rfl

@[simp] theorem said_cons (l : Lexeme) (ls : List Lexeme) :
    said (l :: ls) = .ok l.token :: said ls := rfl

@[simp] theorem said_append (ls ms : List Lexeme) : said (ls ++ ms) = said ls ++ said ms :=
  List.map_append

/-- What is spelled says the lexeme. -/
def Says (w : Spelled) (l : Lexeme) : Prop := Tells l.token w

/-! ### Writing -/

/-- Each piece with a comma in front of it. -/
def writeNext (ps : List (List Lexeme)) : List Lexeme :=
  ps.flatMap fun p => .symbol .tokenComma :: p

/-- The pieces with commas between them. -/
def writeList : List (List Lexeme) → List Lexeme
  | [] => []
  | p :: ps => p ++ writeNext ps

/-- `: type`. -/
def writeType (ty : Vartype) : List Lexeme :=
  match ty.archetypeName with
  | some name => [.symbol .tokenColon, .name name]
  | none => [.symbol .tokenColon, .primitive ty.primitive]

/-- The type of a declaration, if it has one. -/
def writeTypeOpt (ty : Vartype) : List Lexeme := if ty = noType then [] else writeType ty

/-- The branches of an `if` behind the first one. -/
def writeBranches : List (List Lexeme) → List Lexeme
  | [] => []
  | [body] => .symbol .tokenElse :: body
  | cond :: body :: rest =>
      .symbol .tokenElif :: (cond ++ .symbol .tokenThen :: (body ++ writeBranches rest))

/-- The name of an archetype in parentheses. -/
def writeInsert (t : TokenType) (name : SourceString) : List Lexeme :=
  [.symbol t, .symbol .tokenLparen, .name name, .symbol .tokenRparen]

/-- A node whose children are written `ps`. -/
def writeNode (k : Kind) (ps : List (List Lexeme)) : List Lexeme :=
  match k, ps with
  | .fundecl name ty _, ps =>
      .symbol .tokenFunction :: .name name :: .symbol .tokenLparen ::
        (writeList ps.dropLast ++ .symbol .tokenRparen ::
          (writeTypeOpt ty ++ (ps.getLastD [] ++ [.symbol .tokenEnd])))
  | .argdecl name ty, _ => .name name :: writeType ty
  | .literal l, _ => [.literal l]
  | .symref name, _ => [.name name]
  | .member name, ps => ps.flatten ++ [.symbol .tokenDot, .name name]
  | .builtin (.builtinConstructor p), _ => [.primitive p]
  | .builtin .builtinConstant, _ => []
  | .builtin (.builtinFunction f), _ =>
      [.primitive f.primitive, .symbol .tokenDot, .name (wholeString f.name)]
  | .returnStmt, ps => .symbol .tokenReturn :: ps.flatten
  | .ifStmt, cond :: body :: rest =>
      .symbol .tokenIf :: (cond ++ .symbol .tokenThen ::
        (body ++ (writeBranches rest ++ [.symbol .tokenEnd])))
  | .whileStmt, [cond, body] =>
      .symbol .tokenWhile :: (cond ++ .symbol .tokenDo :: (body ++ [.symbol .tokenEnd]))
  | .vardecl name ty, ps =>
      .symbol .tokenLet :: .name name :: (writeTypeOpt ty ++ .symbol .tokenAssign :: ps.flatten)
  | .call, callee :: args =>
      callee ++ .symbol .tokenLparen :: (writeList args ++ [.symbol .tokenRparen])
  | .assign, [object, value] => object ++ .symbol .tokenAssign :: value
  | .binop op, [lhs, rhs] =>
      .symbol .tokenLparen :: (lhs ++ .symbol (binopToken op) :: (rhs ++ [.symbol .tokenRparen]))
  | .unop op, ps =>
      .symbol .tokenLparen :: .symbol (unopToken op) :: (ps.flatten ++ [.symbol .tokenRparen])
  | .insert name, _ => writeInsert .tokenInsert name
  | .singleton name, _ => writeInsert .tokenSingleton name
  | _, ps => ps.flatten

section
variable {name : SourceString} {ty : Vartype} {l body : List Lexeme} {ps : List (List Lexeme)}

@[simp] theorem writeNode_fundecl {exported : Bool} :
    writeNode (.fundecl name ty exported) ps =
      .symbol .tokenFunction :: .name name :: .symbol .tokenLparen ::
        (writeList ps.dropLast ++ .symbol .tokenRparen ::
          (writeTypeOpt ty ++ (ps.getLastD [] ++ [.symbol .tokenEnd]))) := rfl

@[simp] theorem writeNode_argdecl :
    writeNode (.argdecl name ty) ps = .name name :: writeType ty := rfl

@[simp] theorem writeNode_member :
    writeNode (.member name) ps = ps.flatten ++ [.symbol .tokenDot, .name name] := rfl

@[simp] theorem writeNode_function {f : BuiltinFunction} :
    writeNode (.builtin (.builtinFunction f)) ps =
      [.primitive f.primitive, .symbol .tokenDot, .name (wholeString f.name)] := rfl

@[simp] theorem writeNode_returnStmt :
    writeNode .returnStmt ps = .symbol .tokenReturn :: ps.flatten := rfl

@[simp] theorem writeNode_ifStmt :
    writeNode .ifStmt (l :: body :: ps) =
      .symbol .tokenIf :: (l ++ .symbol .tokenThen ::
        (body ++ (writeBranches ps ++ [.symbol .tokenEnd]))) := rfl

@[simp] theorem writeNode_whileStmt :
    writeNode .whileStmt [l, body] =
      .symbol .tokenWhile :: (l ++ .symbol .tokenDo :: (body ++ [.symbol .tokenEnd])) := rfl

@[simp] theorem writeNode_vardecl :
    writeNode (.vardecl name ty) ps =
      .symbol .tokenLet :: .name name ::
        (writeTypeOpt ty ++ .symbol .tokenAssign :: ps.flatten) := rfl

@[simp] theorem writeNode_call :
    writeNode .call (l :: ps) =
      l ++ .symbol .tokenLparen :: (writeList ps ++ [.symbol .tokenRparen]) := rfl

@[simp] theorem writeNode_assign :
    writeNode .assign [l, body] = l ++ .symbol .tokenAssign :: body := rfl

@[simp] theorem writeNode_binop {op : Binop} :
    writeNode (.binop op) [l, body] =
      .symbol .tokenLparen ::
        (l ++ .symbol (binopToken op) :: (body ++ [.symbol .tokenRparen])) := rfl

@[simp] theorem writeNode_unop {op : Unop} :
    writeNode (.unop op) ps =
      .symbol .tokenLparen :: .symbol (unopToken op) ::
        (ps.flatten ++ [.symbol .tokenRparen]) := rfl

@[simp] theorem writeNode_compound : writeNode .compound ps = ps.flatten := rfl

end

/-- The trees of a piece of syntax, each as its lexemes. -/
def writings : Syn → List (List Lexeme)
  | .nil => []
  | .cons k cs next => writeNode k (writings cs) :: writings next

/-- The lexemes of a piece of syntax. -/
def write (s : Syn) : List Lexeme := (writings s).flatten

@[simp] theorem writings_nil : writings .nil = [] := rfl

@[simp] theorem writings_cons (k : Kind) (cs next : Syn) :
    writings (.cons k cs next) = writeNode k (writings cs) :: writings next := rfl

@[simp] theorem writings_tree (k : Kind) (cs : Syn) :
    writings (.tree k cs) = [writeNode k (writings cs)] := rfl

@[simp] theorem writings_leaf (k : Kind) : writings (.leaf k) = [writeNode k []] := rfl

@[simp] theorem writings_append (s t : Syn) : writings (s ++ t) = writings s ++ writings t := by
  induction s with
  | nil => rfl
  | cons k cs next _ ih => rw [Forest.cons_append, writings, ih, writings, List.cons_append]

@[simp] theorem write_nil : write .nil = [] := rfl

@[simp] theorem write_append (s t : Syn) : write (s ++ t) = write s ++ write t := by
  simp [write]

end Nucleus.Spec
