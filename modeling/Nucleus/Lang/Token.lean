import Nucleus.Vm.Math

/-!
# `Nucleus.Lang.Token`: tokens and error codes

The data of `lang/token.h`: locations, spans, source strings, literals and tokens, and the
character classes and string comparisons its macros define. With it stands `nulang__error_t` of
`lang/error.h`. `NULANG_ERROR_NONE` is not a constructor: it is the success of the run.
-/

set_option autoImplicit false

namespace Nucleus.Lang

open Nucleus.Vm

/-- `nulang__error_t`, without `NULANG_ERROR_NONE`. -/
inductive Error where
  | outOfNode | outOfMemory
  | illegalCharacter | parseFixedPoint | unterminatedString | unexpectedToken
  | symbolAlreadyDefined | invalidAtomExpression | unexpectedBinop | nonStatementToken
  | identifierAsStatement | invalidVartype | functionOutsideGlobalScope
  | duplicatedFunctionArgument
  | incompatibleType | illegalArithmetic | illegalComparison | illegalLogical
  | unknownSymbolType | archetypeNotFound | unresolvedSymbol | notCallableSymbol
  | nonBooleanExpression | returnOutsideFunction
  deriving DecidableEq, Repr

/-- `NULANG_NUMERIC_CHAR`. -/
def numericChar (c : Char) : Bool := '0' ≤ c ∧ c ≤ '9'

/-- `NULANG_IDENTIFIER_CHAR`. -/
def identifierChar (c : Char) : Bool := numericChar c ∨ ('a' ≤ c ∧ c ≤ 'z') ∨ c = '_'

/-- `NULANG_MATCH_TOKEN(s, t, n)`. The macro measures its second argument. -/
def matchToken (s t : List Char) (n : Nat) : Bool := n = strlen t ∧ strncmp s t n = 0

/-- `nulang_location_t`. -/
structure Location where
  line : UInt16
  column : UInt16
  index : UInt32
  deriving DecidableEq, Repr

/-- `nulang__span_t`. -/
structure Span where
  start : Location
  stop : Location
  deriving DecidableEq, Repr

/-- `nulang__token_type_t`. -/
inductive TokenType where
  | tokenIdentifier | tokenPrimitive | tokenLiteral | tokenImport | tokenFrom | tokenExport
  | tokenComment | tokenSpace | tokenLparen | tokenRparen | tokenLbracket | tokenRbracket
  | tokenComma | tokenDot | tokenColon | tokenAdd | tokenSub | tokenMul | tokenDiv
  | tokenEqual | tokenAssign | tokenNequal | tokenLequal | tokenGequal | tokenLess
  | tokenGreater | tokenAnd | tokenOr | tokenNot | tokenLet | tokenIf | tokenThen | tokenElse
  | tokenElif | tokenEnd | tokenDo | tokenFor | tokenIn | tokenWhile | tokenFunction
  | tokenBreak | tokenContinue | tokenReturn | tokenInsert | tokenDelete | tokenSingleton
  | tokenIter | tokenNext | tokenEof
  deriving DecidableEq, Repr

/-- `nulang__string_t`: `p` points into a text, which is the list from the pointer on, and
`n` is the length of the slice. -/
structure SourceString where
  p : List Char
  n : Nat
  deriving DecidableEq, Repr

/-- The characters a slice denotes. -/
def SourceString.text (s : SourceString) : List Char := s.p.take s.n

/-- `NULANG_SOURCE_STRING_EQUALS`. -/
def sourceStringEquals (a b : SourceString) : Bool := a.n = b.n ∧ strncmp a.p b.p a.n = 0

/-- `nulang__lit_t`: the literal's type is the constructor, its value the argument. -/
inductive Literal where
  | literalNil
  | literalBool (b : Bool)
  | literalString (s : SourceString)
  | literalInt (i : UInt32)
  | literalFix (f : Int32)
  deriving DecidableEq, Repr

/-- `nulang__token_value_t`: the member of the union that was last stored. `none` is the
zero that the token macros store. -/
inductive TokenValue where
  | none
  | primitive (p : Primitive)
  | literal (l : Literal)
  | identifier (s : SourceString)
  deriving DecidableEq, Repr

/-- `nulang__token_t`. -/
structure Token where
  type : TokenType
  span : Span
  value : TokenValue
  deriving DecidableEq, Repr

/-- `tok.value.primitive`. -/
def TokenValue.toPrimitive : TokenValue → Primitive
  | .primitive p => p
  | _ => .bool

/-- `tok.value.literal`. -/
def TokenValue.toLiteral : TokenValue → Literal
  | .literal l => l
  | _ => .literalNil

/-- `tok.value.identifier`. -/
def TokenValue.toIdentifier : TokenValue → SourceString
  | .identifier s => s
  | _ => ⟨[], 0⟩

/-- `NULANG_TOKEN_EOF`. -/
def Token.eof : Token := ⟨.tokenEof, ⟨⟨0, 0, 0⟩, ⟨0, 0, 0⟩⟩, .none⟩

/-- `NULANG_TOKEN_SINGLE`. -/
def Token.single (t : TokenType) (loc : Location) : Token := ⟨t, ⟨loc, loc⟩, .none⟩

/-- `NULANG_TOKEN_DOUBLE`. The macro gives the stop location a line and a column only, so its
index is zero. -/
def Token.double (t : TokenType) (loc : Location) : Token :=
  ⟨t, ⟨loc, ⟨loc.line, loc.column + 1, 0⟩⟩, .none⟩

end Nucleus.Lang
