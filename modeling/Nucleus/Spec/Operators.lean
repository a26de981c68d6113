import Nucleus.Lang.Lexer

/-!
# `Nucleus.Spec.Operators`: operators and punctuation as texts

The tokens with a fixed spelling that is no word, by the names of `lang/token.h`. An
`OperatorText` is a way to write a sequence of them: spaces, newlines and comment lines stand
where one likes, and at least one of these where two spellings would merge. Nothing here is
about how the lexer reads such a text.
-/

set_option autoImplicit false

namespace Nucleus.Spec

open Nucleus.Lang

/-- The operators and the punctuation of the language. -/
inductive Operator where
  | add
  | sub
  | mul
  | div
  | lparen
  | rparen
  | lbracket
  | rbracket
  | comma
  | dot
  | colon
  | assign
  | equal
  | nequal
  | less
  | lequal
  | greater
  | gequal
  deriving DecidableEq, Repr

/-- The token type by the name of the operator. -/
def Operator.type : Operator → TokenType
  | .add => .tokenAdd
  | .sub => .tokenSub
  | .mul => .tokenMul
  | .div => .tokenDiv
  | .lparen => .tokenLparen
  | .rparen => .tokenRparen
  | .lbracket => .tokenLbracket
  | .rbracket => .tokenRbracket
  | .comma => .tokenComma
  | .dot => .tokenDot
  | .colon => .tokenColon
  | .assign => .tokenAssign
  | .equal => .tokenEqual
  | .nequal => .tokenNequal
  | .less => .tokenLess
  | .lequal => .tokenLequal
  | .greater => .tokenGreater
  | .gequal => .tokenGequal

/-- How an operator is written. -/
def Operator.spelling : Operator → List Char
  | .add => ['+']
  | .sub => ['-']
  | .mul => ['*']
  | .div => ['/']
  | .lparen => ['(']
  | .rparen => [')']
  | .lbracket => ['[']
  | .rbracket => [']']
  | .comma => [',']
  | .dot => ['.']
  | .colon => [':']
  | .assign => ['=']
  | .equal => ['=', '=']
  | .nequal => ['!', '=']
  | .less => ['<']
  | .lequal => ['<', '=']
  | .greater => ['>']
  | .gequal => ['>', '=']

/-- The two brackets. -/
def Operator.Bracket (op : Operator) : Prop := op = .lbracket ∨ op = .rbracket

/-- The character `c` right behind the operator makes something else of it: an `=` behind `=`,
`<` or `>` another operator, and a `-` behind `-` a comment. -/
def Operator.Extends (op : Operator) (c : Char) : Prop :=
  (c = '=' ∧ (op = .assign ∨ op = .less ∨ op = .greater)) ∨ (c = '-' ∧ op = .sub)

/-- The spelling of the second operator right behind the first one merges with it. -/
def Operator.Merges (op next : Operator) : Prop := ∃ c ∈ next.spelling.head?, op.Extends c

/-- The text of a comment line, behind its two dashes. -/
def CommentText : Type := { body : List Char // '\n' ∉ body ∧ '\x00' ∉ body }

/-- What may stand between operators. -/
inductive Separator where
  | space
  | newline
  | comment (body : CommentText)

/-- A comment line goes up to its newline. -/
def Separator.text : Separator → List Char
  | .space => [' ']
  | .newline => ['\n']
  | .comment body => '-' :: '-' :: (body.val ++ ['\n'])

/-- The separators of a gap one behind the other. -/
def gapText (gap : List Separator) : List Char := gap.flatMap Separator.text

/-- An operator with the separators behind it. -/
structure SpacedOperator where
  operator : Operator
  gap : List Separator

/-- The operator with its gap behind it. -/
def SpacedOperator.text (w : SpacedOperator) : List Char := w.operator.spelling ++ gapText w.gap

/-- A comment line stands right behind a `-`: then three dashes follow one another. -/
def SpacedOperator.Swallowed (w : SpacedOperator) : Prop :=
  w.operator = .sub ∧ ∃ body rest, w.gap = .comment body :: rest

/-- A sequence of operators with separators before, between and behind them. Where there is no
separator, the spellings do not merge. -/
structure OperatorText where
  lead : List Separator
  written : List SpacedOperator
  apart : written.IsChain fun w next => w.gap = [] → ¬ w.operator.Merges next.operator

/-- The characters of the text. -/
def OperatorText.text (t : OperatorText) : List Char :=
  gapText t.lead ++ t.written.flatMap SpacedOperator.text

/-- The types of the operators in their order. -/
def OperatorText.types (t : OperatorText) : List TokenType := t.written.map (·.operator.type)

/-- No operator is spelled with the end of a string. -/
theorem Operator.nul_not_mem_spelling (op : Operator) : '\x00' ∉ op.spelling := by
  cases op <;> decide

/-- Separators do not contain the end of a string. -/
theorem nul_not_mem_gapText (gap : List Separator) : '\x00' ∉ gapText gap := by
  intro hmem
  obtain ⟨s, -, hs⟩ := List.mem_flatMap.mp hmem
  cases s with
  | space => exact absurd hs (by decide)
  | newline => exact absurd hs (by decide)
  | comment body =>
      have hbody : '\x00' ∈ body.val := by simpa [Separator.text] using hs
      exact body.property.2 hbody

/-- The text of operators does not contain the end of a string, so it is read to its end. -/
theorem OperatorText.nul_not_mem (t : OperatorText) : '\x00' ∉ t.text := by
  intro hmem
  rcases List.mem_append.mp hmem with hlead | hwritten
  · exact nul_not_mem_gapText _ hlead
  · obtain ⟨w, -, hw⟩ := List.mem_flatMap.mp hwritten
    rcases List.mem_append.mp hw with hop | hgap
    · exact w.operator.nul_not_mem_spelling hop
    · exact nul_not_mem_gapText _ hgap

/-- The source that consists of the text. -/
def OperatorText.source (t : OperatorText) : Source := ⟨t.text, t.nul_not_mem⟩

end Nucleus.Spec
