import Nucleus.Spec.Lexical

/-!
# `Nucleus.Spec.Words`: words and their spelling

A word of a source is a maximal run of identifier characters that does not start with a digit
and lies outside strings and comments (`WordAt`). `modeAfter` tells what is outside, one
character after the other, without the lexer.

`spelling` classifies a word by its characters alone. `lexerAfter` and `consumed` number the
calls of `nulang__lexer_next` and say which characters a call reads.
-/

set_option autoImplicit false

namespace Nucleus.Spec

open Nucleus.Vm
open Nucleus.Lang

/-! ### Outside strings and comments -/

/-- What a position of a source is inside of. `dash` is code behind a `-`, which a second one
turns into a comment. -/
inductive Mode where
  | code | dash | string | comment
  deriving DecidableEq, Repr

/-- Code, from its next character on. -/
def codeStep (c : Char) : Mode :=
  if c = '\'' then .string else if c = '-' then .dash else .code

/-- The mode behind a character. -/
def Mode.step : Mode → Char → Mode
  | .code, c => codeStep c
  | .dash, c => if c = '-' then .comment else codeStep c
  | .string, c => if c = '\'' then .code else .string
  | .comment, c => if c = '\n' then .code else .comment

/-- The mode behind the characters `s`. -/
def modeAfter (m : Mode) (s : List Char) : Mode := s.foldl Mode.step m

@[simp] theorem modeAfter_nil (m : Mode) : modeAfter m [] = m := rfl

/-- The mode behind one more character. -/
@[simp] theorem modeAfter_cons (m : Mode) (c : Char) (s : List Char) :
    modeAfter m (c :: s) = modeAfter (m.step c) s := rfl

/-- The mode behind two texts. -/
@[simp] theorem modeAfter_append (m : Mode) (s t : List Char) :
    modeAfter m (s ++ t) = modeAfter (modeAfter m s) t := List.foldl_append

/-- Outside strings and comments. -/
def Mode.Outside (m : Mode) : Prop := m ≠ .string ∧ m ≠ .comment

instance (m : Mode) : Decidable m.Outside :=
  inferInstanceAs (Decidable (m ≠ .string ∧ m ≠ .comment))

/-! ### Words -/

/-- `w` is a word of the source, between the characters `pre` and `rest`. -/
structure WordAt (source : Source) (pre w rest : List Char) : Prop where
  text : source.val = pre ++ (w ++ rest)
  nonempty : w ≠ []
  chars : ∀ c ∈ w, identifierChar c = true
  start : ∀ c ∈ w.head?, numericChar c = false
  left : ∀ c ∈ pre.getLast?, identifierChar c = false
  right : ∀ c ∈ rest.head?, identifierChar c = false
  outside : (modeAfter .code pre).Outside

/-- The type and the value of a word by its spelling: those of the keyword, the literal or the
primitive with the same characters, else those of an identifier, whose name is the word in its
place before `rest`. -/
def spelling (w rest : List Char) : TokenType × TokenValue :=
  match firstMatch (fun k => k.toList = w) keywords with
  | some t => (t, .none)
  | none =>
      match firstMatch (fun k => k.toList = w) literalWords with
      | some l => (.tokenLiteral, .literal l)
      | none =>
          match firstMatch (fun k => k.toList = w) primitiveNames with
          | some p => (.tokenPrimitive, .primitive p)
          | none => (.tokenIdentifier, .identifier ⟨w ++ rest, w.length⟩)

/-! ### Calls of the lexer -/

/-- The lexer after `k` calls of `nulang__lexer_next`. -/
def lexerAfter (source : Source) : Nat → Lexer
  | 0 => lexerInit source
  | k + 1 => (lexerNext (lexerAfter source k)).2

/-- The number of characters consumed, with no token in the queue. -/
def consumed (lexer : Lexer) : Nat := lexer.chars.source.val.length - lexer.chars.remaining

/-- The call of `nulang__lexer_next` that reads the character at the offset `i` returns `r`. -/
def ReadBy (source : Source) (i : Nat) (r : LexResult) : Prop :=
  ∃ k, consumed (lexerAfter source k) ≤ i ∧ i < consumed (lexerAfter source (k + 1)) ∧
    (lexerNext (lexerAfter source k)).1 = r

/-! ### The comparison with `and` -/

/-- The prefixes of `and`, which the comparison with `and` in `nulang__consume_identifier` takes
for `and` at the end of the source. -/
def andPrefixes : List (List Char) := ["a".toList, "an".toList, "and".toList]

/-- The words that this comparison misreads: `and` with something behind it, and a shorter
prefix of `and` at the end of the source. -/
def Misread (w rest : List Char) : Prop :=
  w = "and".toList ∧ rest ≠ [] ∨ (w = "a".toList ∨ w = "an".toList) ∧ rest = []

end Nucleus.Spec
