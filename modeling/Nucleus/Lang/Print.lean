import Nucleus.Lang.Compiler

/-!
# `Nucleus.Lang.Print`: what the compiler prints

`nulang_print_status` and `nulang_print_ast` of `lang/print.h`. A function that prints returns the
characters that it appends to the standard output. The conversions of `printf` are `decimal` for
`%d` and `formatString` for `%.*s`. The conversion `%f` of a `float` is a parameter, `formatFix`.

A loop that reads the source gets one unit of fuel for each turn. A read behind the NUL of the
source gives `none`: the source promises nothing from there on.
-/

set_option autoImplicit false

namespace Nucleus.Lang

open Nucleus.Vm (Primitive)

/-! ### Names -/

/-- `NULANG_TOKEN_NAMES`. -/
def TokenType.name : TokenType → List Char
  | .tokenIdentifier => "IDENTIFIER".toList
  | .tokenPrimitive => "PRIMITIVE".toList
  | .tokenLiteral => "LITERAL".toList
  | .tokenImport => "IMPORT".toList
  | .tokenFrom => "FROM".toList
  | .tokenExport => "EXPORT".toList
  | .tokenComment => "COMMENT".toList
  | .tokenSpace => "SPACE".toList
  | .tokenLparen => "LPAREN".toList
  | .tokenRparen => "RPAREN".toList
  | .tokenLbracket => "LBRACKET".toList
  | .tokenRbracket => "RBRACKET".toList
  | .tokenComma => "COMMA".toList
  | .tokenDot => "DOT".toList
  | .tokenColon => "COLON".toList
  | .tokenAdd => "ADD".toList
  | .tokenSub => "SUB".toList
  | .tokenMul => "MUL".toList
  | .tokenDiv => "DIV".toList
  | .tokenEqual => "EQUAL".toList
  | .tokenAssign => "ASSIGN".toList
  | .tokenNequal => "NEQUAL".toList
  | .tokenLequal => "LEQUAL".toList
  | .tokenGequal => "GEQUAL".toList
  | .tokenLess => "LESS".toList
  | .tokenGreater => "GREATER".toList
  | .tokenAnd => "AND".toList
  | .tokenOr => "OR".toList
  | .tokenNot => "NOT".toList
  | .tokenLet => "LET".toList
  | .tokenIf => "IF".toList
  | .tokenThen => "THEN".toList
  | .tokenElse => "ELSE".toList
  | .tokenElif => "ELIF".toList
  | .tokenEnd => "END".toList
  | .tokenDo => "DO".toList
  | .tokenFor => "FOR".toList
  | .tokenIn => "IN".toList
  | .tokenWhile => "WHILE".toList
  | .tokenFunction => "FUNCTION".toList
  | .tokenBreak => "BREAK".toList
  | .tokenContinue => "CONTINUE".toList
  | .tokenReturn => "RETURN".toList
  | .tokenInsert => "INSERT".toList
  | .tokenDelete => "DELETE".toList
  | .tokenSingleton => "SINGLETON".toList
  | .tokenIter => "ITER".toList
  | .tokenNext => "NEXT".toList
  | .tokenEof => "EOF".toList

/-- `NU_PRIMITIVE_NAMES`. -/
def primitiveName : Primitive → List Char
  | .bool => "BOOL".toList
  | .int => "INT".toList
  | .fix => "FIX".toList
  | .ivec2 => "IVEC2".toList
  | .ivec3 => "IVEC3".toList
  | .ivec4 => "IVEC4".toList
  | .vec2 => "VEC2".toList
  | .vec3 => "VEC3".toList
  | .vec4 => "VEC4".toList
  | .mat4 => "MAT4".toList
  | .quat => "QUAT".toList
  | .entity => "ENTITY".toList
  | .resource => "RESOURCE".toList
  | .unknown => "UNKNOWN".toList

/-- `NULANG_AST_NAMES`. -/
def NodeType.name : NodeType → List Char
  | .astModule => "MODULE".toList
  | .astImport => "IMPORT".toList
  | .astFundecl => "FUNDECL".toList
  | .astCompound => "COMPOUND".toList
  | .astArgdecl => "ARGDECL".toList
  | .astLiteral => "LITERAL".toList
  | .astSymref => "SYMREF".toList
  | .astMember => "MEMBER".toList
  | .astBuiltin => "BUILTIN".toList
  | .astBreak => "BREAK".toList
  | .astContinue => "CONTINUE".toList
  | .astReturn => "RETURN".toList
  | .astIf => "IF".toList
  | .astFor => "FOR".toList
  | .astWhile => "WHILE".toList
  | .astLoop => "LOOP".toList
  | .astVardecl => "VARDECL".toList
  | .astCall => "CALL".toList
  | .astAssign => "ASSIGN".toList
  | .astBinop => "BINOP".toList
  | .astUnop => "UNOP".toList
  | .astInsert => "INSERT".toList
  | .astDelete => "DELETE".toList
  | .astSingleton => "SINGLETON".toList

/-- `NULANG_BINOP_NAMES`. -/
def Binop.name : Binop → List Char
  | .binopAdd => "ADD".toList
  | .binopSub => "SUB".toList
  | .binopMul => "MUL".toList
  | .binopDiv => "DIV".toList
  | .binopEqual => "EQUAL".toList
  | .binopNequal => "NEQUAL".toList
  | .binopLequal => "LEQUAL".toList
  | .binopGequal => "GEQUAL".toList
  | .binopLess => "LESS".toList
  | .binopGreater => "GREATER".toList
  | .binopAnd => "AND".toList
  | .binopOr => "OR".toList

/-- `NULANG_UNOP_NAMES`. -/
def Unop.name : Unop → List Char
  | .unopNot => "NOT".toList
  | .unopNeg => "NEG".toList

/-! ### Conversions -/

/-- `%d`. -/
def decimal : Int → List Char
  | .ofNat n => Nat.toDigits 10 n
  | .negSucc n => '-' :: Nat.toDigits 10 (n + 1)

/-- `%d` of a `nu_u32_t`, which is taken for an `int`. -/
def decimalWord (n : UInt32) : List Char := decimal n.toInt32.toInt

/-- `%.*s` with a `nu_u32_t` for the precision, which is taken for an `int`. A negative one counts
as none. -/
def formatString (n : UInt32) (s : List Char) : List Char :=
  if n.toInt32 < 0 then s else s.take n.toNat

/-- `nulang__print_string`. -/
def printString (s : SourceString) : List Char := formatString (UInt32.ofNat s.n) s.p

/-! ### The status -/

/-- The text of an error. `expected` is the primitive of `error_data.vartype_expect`, which nothing
but the type checker stores. -/
def errorText (ast : Ast) (data : ErrorData) (expected : Primitive) : Error → List Char
  | .outOfNode => "out of nodes (capacity: ".toList ++ decimalWord ast.nodeCapacity ++ ")".toList
  | .outOfMemory => "out of memory".toList
  | .illegalCharacter => "illegal character".toList
  | .parseFixedPoint => "parse fixed point".toList
  | .unterminatedString => "unterminated string".toList
  | .unexpectedToken =>
      "unexpected token (expect: ".toList ++ data.tokenExpect.name ++ ", got: ".toList ++
        data.tokenGot.name ++ ")".toList
  | .symbolAlreadyDefined => "symbol already defined".toList
  | .invalidAtomExpression =>
      "invalid atom expression (got: ".toList ++ data.tokenGot.name ++ ")".toList
  | .unexpectedBinop => "unpexected binop".toList
  | .nonStatementToken => "non statement token".toList
  | .identifierAsStatement => "identifier as statement".toList
  | .invalidVartype => "invalid vartype".toList
  | .functionOutsideGlobalScope => "function outside global scope".toList
  | .duplicatedFunctionArgument => "duplicated function argument".toList
  | .incompatibleType =>
      "incompatible type (expect: ".toList ++ primitiveName expected ++ ")".toList
  | .illegalArithmetic => "illegal arithmetic".toList
  | .illegalComparison => "illegal comparison".toList
  | .illegalLogical => "illegal logical operator".toList
  | .unknownSymbolType => "unknown symbol type".toList
  | .archetypeNotFound => "archetype not found".toList
  | .unresolvedSymbol => "unresolved symbol".toList
  | .notCallableSymbol => "not callable symbol".toList
  | .nonBooleanExpression => "expect a boolean expression".toList
  | .returnOutsideFunction => "return outside function".toList

/-- `*(compiler->source + i)`. -/
def sourceChar (source : Source) (i : UInt32) : Option Char :=
  if i.toNat = source.val.length then some '\x00' else source.val[i.toNat]?

/-- The loop that moves `start` back to the beginning of its line. It does not look at the first
character of the source. -/
def lineStart (source : Source) : Nat → UInt32 → Option UInt32
  | 0, _ => none
  | fuel + 1, start =>
      if start = 0 then some start
      else
        (sourceChar source start).bind fun c =>
          if c = '\n' then some (start + 1) else lineStart source fuel (start - 1)

/-- The loop that moves `stop` to the end of its line. -/
def lineStop (source : Source) : Nat → UInt32 → Option UInt32
  | 0, _ => none
  | fuel + 1, stop =>
      (sourceChar source stop).bind fun c =>
        if c = '\x00' ∨ c = '\n' then some stop else lineStop source fuel (stop + 1)

/-- The end of `nulang_print_status`: the line of the position, and a caret below it. -/
def printExcerpt (fuel : Nat) (source : Source) (index : UInt32) : Option (List Char) := do
  let start ← lineStart source fuel index
  let stop ← lineStop source fuel index
  pure ("ERROR: ".toList ++ formatString (stop - start) (source.val.drop start.toNat) ++
    "\nERROR: ".toList ++ List.replicate (index - start).toNat ' ' ++ "^\n".toList)

/-- `nulang_print_status`. -/
def printStatus (fuel : Nat) (expected : Primitive) (compiler : Compiler) : Option (List Char) :=
  match compiler.error with
  | none => some "SUCCESS\n".toList
  | some error =>
      let start := compiler.errorData.span.start
      (printExcerpt fuel compiler.source start.index).map fun excerpt =>
        "ERROR: ".toList ++ errorText compiler.ast compiler.errorData expected error ++
          " at line ".toList ++ decimal start.line.toNat ++
          " column ".toList ++ decimal start.column.toNat ++ "\n".toList ++ excerpt

/-! ### The tree -/

section
variable (formatFix : Int32 → List Char)

/-- `nulang__print_literal`. -/
def printLiteral : Literal → List Char
  | .literalNil => "nil".toList
  | .literalBool true => "bool(true)".toList
  | .literalBool false => "bool(false)".toList
  | .literalString s => "str('".toList ++ printString s ++ "')".toList
  | .literalInt i => "int(".toList ++ decimalWord i ++ ")".toList
  | .literalFix f => "fix(".toList ++ formatFix f ++ ")".toList

/-- `nulang__print_vartype`. An entity type was stored with an archetype. -/
def printVartype (type : Vartype) : List Char :=
  primitiveName type.primitive ++
    if type.primitive = .entity then
      match type.archetype with
      | some archetype =>
          if archetype ≠ archetypeNull then
            "(archetype=".toList ++ decimal archetype.toNat ++ ") ".toList
          else "(archetype=UNRESOLVED) ".toList
      | none => []
    else []

/-- `nulang__print_builtin`. -/
def printBuiltin : Builtin → List Char
  | .builtinConstructor p => "constructor=".toList ++ primitiveName p ++ " ".toList
  | .builtinConstant => "constant= ".toList
  | .builtinFunction f =>
      "primitive=".toList ++ primitiveName f.primitive ++ " function=".toList ++ f.name ++
        " ".toList

/-- `nulang__print_depth`. -/
def printDepth (depth : UInt16) : List Char := (List.replicate depth.toNat "  ".toList).flatten

/-- The value of a node, by the cases of `nulang__print_node`. A node of one of these types was
stored with a value of its type. -/
def printValue (node : Node) : List Char :=
  match node.type, node.value with
  | .astVardecl, .vardecl name type =>
      "name=".toList ++ printString name ++ " type=".toList ++ printVartype type
  | .astFundecl, .fundecl name type _ =>
      "name=".toList ++ printString name ++ " type=".toList ++ printVartype type
  | .astArgdecl, .argdecl name type =>
      "name=".toList ++ printString name ++ " type=".toList ++ printVartype type
  | .astSymref, .symref id name =>
      "name=".toList ++ printString name ++ " node=".toList ++ decimalWord (UInt32.ofNat id)
  | .astLiteral, .literal l => printLiteral formatFix l
  | .astBinop, .binop op => op.name
  | .astUnop, .unop op => op.name
  | .astMember, .member name => printString name
  | .astBuiltin, .builtin b => printBuiltin b
  | .astInsert, .insert archetype _ =>
      "archetype(".toList ++ decimal archetype.toNat ++ ") ".toList
  | .astSingleton, .singleton archetype _ =>
      "archetype(".toList ++ decimal archetype.toNat ++ ") ".toList
  | _, _ => []

/-- The line that `nulang__print_node` prints for a node. -/
def printLine (depth : UInt16) (id : NodeId) (node : Node) : List Char :=
  printDepth depth ++ "[".toList ++ decimalWord (UInt32.ofNat id) ++ "] ".toList ++
    node.type.name ++ " ".toList ++ printValue formatFix node ++ "\n".toList

/-- `nulang__print_node`. -/
def printNode (ast : Ast) : Nat → UInt16 → NodeId → Option (List Char)
  | 0, _, _ => none
  | fuel + 1, depth, id =>
      let node := ast.nodes id
      let childs :=
        if node.firstChild ≠ nodeNull then printNode ast fuel (depth + 1) node.firstChild
        else some []
      let siblings :=
        if node.nextSibling ≠ nodeNull then printNode ast fuel depth node.nextSibling else some []
      childs.bind fun childs =>
        siblings.map fun siblings => printLine formatFix depth id node ++ childs ++ siblings

/-- `nulang_print_ast`. -/
def printAst (fuel : Nat) (compiler : Compiler) : Option (List Char) :=
  (printNode formatFix compiler.ast fuel 0 compiler.ast.root).map fun tree =>
    "==== AST ====\n".toList ++ tree

end

end Nucleus.Lang
