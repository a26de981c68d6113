import Nucleus.Vm.Numeral
import Nucleus.Spec.Numerals

/-!
# `Nucleus.Spec.Parsers`: what the numeral parsers are for

A `Decimal` is a string of digits with one dot. `nu_fparse` should round it down to 16 binary places
without a wrapped word, or reject it for its decimal places (`ParsesDecimal`). Both parsers should
negate what stands behind a minus (`Negates`).

A parser reads the first `n` characters at a pointer, so there is a text behind the numeral too.
-/

set_option autoImplicit false

namespace Nucleus.Spec

open Nucleus.Lib
open Nucleus.Vm
open Nucleus.Lang

/-! ### Rounding down -/

/-- Digits with a dot somewhere: at the start, inside or at the end. -/
structure Decimal where
  ip : List Char
  fp : List Char
  ip_digits : ∀ c ∈ ip, numericChar c = true
  fp_digits : ∀ c ∈ fp, numericChar c = true

/-- The characters of the numeral. -/
def Decimal.text (d : Decimal) : List Char := d.ip ++ '.' :: d.fp

/-- The numeral with 16 binary places, rounded down. -/
def Decimal.fixed (d : Decimal) : Nat :=
  digitsValue d.ip * 2 ^ 16 + digitsValue d.fp * 2 ^ 16 / 10 ^ d.fp.length

/-- The call returns `NU_ERROR_NONE` with the value of the numeral. The same run with operations
that stop on a wrap returns it too, so no word of it wraps around. -/
def RoundsDown (d : Decimal) (rest : List Char) (v : Int32) : Prop :=
  ∃ fuel r, fparseCall wrapping fuel (d.text ++ rest) d.text.length v = some (.ok (), r) ∧
    fparseCall checked fuel (d.text ++ rest) d.text.length v = some (.ok (), r) ∧
    r.toInt = d.fixed

/-- The call returns an error and leaves `*v` as it was. -/
def Rejects (d : Decimal) (rest : List Char) (v : Int32) : Prop :=
  ∃ fuel e, fparseCall wrapping fuel (d.text ++ rest) d.text.length v = some (.error e, v)

/-- An integer part below `2 ^ 15` and at most six decimal places are rounded down, and more places
are rejected. -/
def ParsesDecimal (d : Decimal) (rest : List Char) (v : Int32) : Prop :=
  (digitsValue d.ip < 2 ^ 15 → d.fp.length ≤ 6 → RoundsDown d rest v) ∧
    (6 < d.fp.length → Rejects d rest v)

/-- An index of 32 bits counts the numeral, or as much of it as there is up to the dot of one that
is to be rejected. -/
def Decimal.Countable (d : Decimal) : Prop :=
  (digitsValue d.ip < 2 ^ 15 → d.fp.length ≤ 6 → d.text.length < 2 ^ 32) ∧
    (6 < d.fp.length → d.ip.length < 2 ^ 32)

/-! ### Negative numerals -/

/-- The two parsers. -/
inductive NumeralParser where
  | fparse | iparse
  deriving DecidableEq, Repr

/-- A call of the parser on the machine. -/
def NumeralParser.call : NumeralParser → Nat → List Char → Nat → Int32 → Option ParseResult
  | .fparse => fparseCall wrapping
  | .iparse => iparseCall

/-- The numerals that the parser has a value of 31 bits for. -/
inductive NumeralParser.HasRoom : NumeralParser → List Char → Prop where
  | integer {t : List Char} :
      (∀ c ∈ t, numericChar c = true) → digitsValue t < 2 ^ 31 → HasRoom .iparse t
  | whole {t : List Char} :
      (∀ c ∈ t, numericChar c = true) → digitsValue t < 2 ^ 15 → HasRoom .fparse t
  | decimal (d : Decimal) :
      d.fp.length ≤ 6 → digitsValue d.ip < 2 ^ 15 → HasRoom .fparse d.text

/-- The parser accepts the numeral with and without a minus, and the values are opposite. -/
def Negates (p : NumeralParser) (t rest : List Char) (v : Int32) : Prop :=
  ∃ fuel r r', p.call fuel (t ++ rest) t.length v = some (.ok (), r) ∧
    p.call fuel ('-' :: t ++ rest) (t.length + 1) v = some (.ok (), r') ∧ r'.toInt = -r.toInt

end Nucleus.Spec
