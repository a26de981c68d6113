import Mathlib.Data.Rat.Floor
import Nucleus.Spec.Words

/-!
# `Nucleus.Spec.Numerals`: numerals and what they denote

A numeral of a source is a maximal run of digits with at most one dot that starts with a digit and
lies outside strings, comments, words and other numerals (`NumeralAt`). `runAfter` tells what is
outside words and numerals, one character after the other, without the lexer.

`numeralValue` is the number that a numeral denotes, and `Exact` says that a result of the lexer is
an error or that number. `InRange` is the condition under which the lexer gives such a result.
-/

set_option autoImplicit false

namespace Nucleus.Spec

open Nucleus.Vm
open Nucleus.Lang

/-! ### Numerals -/

/-- What a position of a source is inside of, by the letters, digits and dots in front of it: a
word, a numeral without a dot, or one with a dot. -/
inductive Run where
  | other | word | integer | decimal
  deriving DecidableEq, Repr

/-- The run behind a character. A letter ends a numeral, and so does a second dot. -/
def Run.step (r : Run) (c : Char) : Run :=
  if numericChar c then if r = .other then .integer else r
  else if identifierChar c then .word
  else if c = '.' ∧ r = .integer then .decimal
  else .other

/-- The run behind the characters `s`. -/
def runAfter (r : Run) (s : List Char) : Run := s.foldl Run.step r

@[simp] theorem runAfter_nil (r : Run) : runAfter r [] = r := rfl

/-- A run behind one more character. -/
@[simp] theorem runAfter_cons (r : Run) (c : Char) (s : List Char) :
    runAfter r (c :: s) = runAfter (r.step c) s := rfl

/-- A run behind two texts. -/
@[simp] theorem runAfter_append (r : Run) (s t : List Char) :
    runAfter r (s ++ t) = runAfter (runAfter r s) t := List.foldl_append

/-- `w` is a numeral of the source, between the characters `pre` and `rest`. -/
structure NumeralAt (source : Source) (pre w rest : List Char) : Prop where
  text : source.val = pre ++ (w ++ rest)
  digit : ∃ c ∈ w.head?, numericChar c = true
  maximal : numeralPrefix false (w ++ rest) = w
  left : runAfter .other pre = .other
  outside : (modeAfter .code pre).Outside

/-! ### Their values -/

/-- The decimal integer of the digits `s`. -/
def digitsValue (s : List Char) : Nat := s.foldl (fun v c => v * 10 + (c.toNat - '0'.toNat)) 0

/-- The digits in front of the dot. -/
def intPart (w : List Char) : List Char := w.takeWhile (· ≠ '.')

/-- The digits behind the dot. -/
def fracPart (w : List Char) : List Char := (w.dropWhile (· ≠ '.')).drop 1

/-- The number that a numeral denotes. -/
def numeralValue (w : List Char) : ℚ :=
  digitsValue (intPart w) + digitsValue (fracPart w) / 10 ^ (fracPart w).length

/-- The call returns an error, or a literal with the value of the numeral: an integer below `2 ^ 31`
without a dot, and a number of 16 binary places, which is rounded down, with one. -/
inductive Exact (w : List Char) : LexResult → Prop where
  | error {code : Lang.Error} {span : Option Span} : Exact w (.error ⟨some code, span⟩)
  | int {span : Span} {i : UInt32} :
      '.' ∉ w → (i.toNat : ℚ) = numeralValue w → i.toNat < 2 ^ 31 →
      Exact w (.ok ⟨.tokenLiteral, span, .literal (.literalInt i)⟩)
  | fix {span : Span} {f : Int32} :
      '.' ∈ w → f.toInt = ⌊numeralValue w * 2 ^ 16⌋ →
      Exact w (.ok ⟨.tokenLiteral, span, .literal (.literalFix f)⟩)

/-! ### The calls that read them -/

/-- The text behind a numeral makes it an error: another dot, or an identifier character. -/
def Spoils (rest : List Char) : Prop := ∃ d ∈ rest.head?, d = '.' ∨ identifierChar d = true

/-- The call that reads the numeral returns an error or its value. -/
def MeansWhatItSays (source : Source) (pre w : List Char) : Prop :=
  ∃ r, ReadBy source pre.length r ∧ Exact w r

/-- The numeral is rejected, or its value has room. The index of the digit loops has 32 bits: it
does not come to the end of a numeral of `2 ^ 32` characters, and the call that reads one returns if
there is a dot for the index to come to. -/
def InRange (w rest : List Char) : Prop :=
  Spoils rest ∨
    (w.length < 2 ^ 32 ∧ '.' ∉ w ∧ digitsValue w < 2 ^ 31) ∨
    (w.length < 2 ^ 32 ∧ '.' ∈ w ∧
      (6 < (fracPart w).length ∨ digitsValue (intPart w) < 2 ^ 15)) ∨
    (2 ^ 32 ≤ w.length ∧ '.' ∈ w.take (2 ^ 32))

end Nucleus.Spec
