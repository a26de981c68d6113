import Nucleus.Lang.Print
import Nucleus.Lib.Forest
import Nucleus.Spec.Lexical

/-!
# `Nucleus.Spec.Diagnostics`: what is printed

A text is split at a place of one of its lines (`InLine`). `diagnostic` is what
`nulang_print_status` prints about it: the text of the error, the place, the line, and a caret below
the place. There is one slip in the source, and `shownBefore` keeps it: where the text begins with
an empty line, the second line is shown with the newline of the first.

`Blames` says where the place is: at the first character of an item that the lexer gave, or at the
beginning of the source, under the name of line 0, when the error is at the end of the source.

`outline` is what `nulang__print_node` prints: a line for each node of a forest, in pre-order.
-/

set_option autoImplicit false

namespace Nucleus.Spec

open Nucleus.Lib (Forest)
open Nucleus.Lang
open Nucleus.Vm (Primitive)

/-- The source is split behind `before ++ under`, and `under ++ line` is one of its lines. -/
structure InLine (source : Source) (before under line after : List Char) : Prop where
  text : source.val = before ++ (under ++ (line ++ after))
  before : before = [] ∨ ∃ lines, before = lines ++ ['\n']
  under : '\n' ∉ under
  line : '\n' ∉ line
  after : after = [] ∨ ∃ lines, after = '\n' :: lines

/-- The span is that of a result of the source, which was read behind `before ++ under`. -/
structure BlamesItem (source : Source) (span : Span) (before under used rest : List Char)
    (r : LexResult) : Prop where
  text : source.val = before ++ under ++ (used ++ rest)
  result : r ∈ resultsOf source
  item : Item (before ++ under) used rest r
  stored : resultSpan r = some span
  index : span.start.index.toNat = (before ++ under).length
  line : span.start.line.toNat = 1 + before.count '\n'
  column : span.start.column.toNat = 1 + under.length

/-- What an error with the span is about, with `before ++ under` in front of it: the end of the
source, or a result of the lexer. -/
inductive Blames (source : Source) (span : Span) : List Char → List Char → Prop where
  | atEnd : span = Token.eof.span → Blames source span [] []
  | item {before under used rest : List Char} {r : LexResult} :
      BlamesItem source span before under used rest r → Blames source span before under

/-- The characters of the lines in front of a line that are shown with it. -/
def shownBefore (before : List Char) : List Char := if before = ['\n'] then before else []

/-- The line with the place behind `before ++ under`, and the caret. -/
def excerptOf (before under line : List Char) : List Char :=
  "ERROR: ".toList ++ (shownBefore before ++ (under ++ line)) ++ "\nERROR: ".toList ++
    List.replicate (shownBefore before ++ under).length ' ' ++ "^\n".toList

/-- What is printed about the error `e` of a compiler. -/
def diagnostic (expected : Primitive) (compiler : Compiler) (e : Error)
    (before under line : List Char) : List Char :=
  "ERROR: ".toList ++ errorText compiler.ast compiler.errorData expected e ++
    " at line ".toList ++ decimal compiler.errorData.span.start.line.toNat ++
    " column ".toList ++ decimal compiler.errorData.span.start.column.toNat ++ "\n".toList ++
      excerptOf before under line

/-- The lines of a forest, in pre-order and under their depth. The depth is counted in 16 bits. -/
def outline (line : UInt16 → NodeId → List Char) : UInt16 → Forest NodeId → List Char
  | _, .nil => []
  | depth, .cons id cs next =>
      line depth id ++ outline line (depth + 1) cs ++ outline line depth next

end Nucleus.Spec
