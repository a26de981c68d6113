import Nucleus.Spec.Alike
import Nucleus.Spec.Numerals
import Nucleus.Spec.Operators

/-!
# `Nucleus.Spec.Texts`: sources as written words

A source that the lexer can read is a sequence of words, numerals, strings and operators. A `Text`
is a way to lay such a sequence out: spaces, newlines and comment lines stand where one likes, and
at least one of these where two spellings would merge. `Spelled.means` is what each of them means,
by its own characters alone.

Three things in it are the code's. The two brackets say each other's type. The word `and` says a
name, since the comparison with it fails wherever something follows (`Text.last` keeps the prefixes
of `and` away from the end of the source, where it succeeds). No comment line stands right behind
a `-`, since it would begin one dash earlier (`Text.kept`).
-/

set_option autoImplicit false

namespace Nucleus.Spec

open Nucleus.Vm
open Nucleus.Lang

/-! ### What is written -/

/-- A word: letters, digits and underscores without a digit in front. -/
structure Word where
  chars : List Char
  ne_nil : chars ≠ []
  ident : ∀ c ∈ chars, identifierChar c = true
  start : ∀ c ∈ chars.head?, numericChar c = false

/-- The check of a word. -/
def wordLike (s : List Char) : Bool :=
  !s.isEmpty && s.all identifierChar && !s.head?.any numericChar

/-- The word of characters that pass the check. -/
def Word.ofChars (s : List Char) (h : wordLike s = true) : Word where
  chars := s
  ne_nil := by
    rintro rfl
    simp [wordLike] at h
  ident := by
    simp only [wordLike, Bool.and_eq_true, List.all_eq_true] at h
    exact h.1.2
  start := by
    simp only [wordLike, Bool.and_eq_true, Bool.not_eq_true', Option.any_eq_false] at h
    exact h.2

/-- A numeral: digits, and at most six more behind a dot if there is one. The digit loops of the
lexer have an index of 32 bits. -/
structure Numeral where
  whole : List Char
  frac : Option (List Char)
  ne_nil : whole ≠ []
  digits : ∀ c ∈ whole, numericChar c = true
  places : ∀ fp ∈ frac, fp.length ≤ 6 ∧ ∀ c ∈ fp, numericChar c = true
  short : whole.length < 2 ^ 31

/-- The check of a numeral without a dot. -/
def wholeLike (s : List Char) : Bool :=
  !s.isEmpty && s.all numericChar && decide (s.length < 2 ^ 31)

/-- The numeral of digits that pass the check. -/
def Numeral.ofDigits (s : List Char) (h : wholeLike s = true) : Numeral where
  whole := s
  frac := none
  ne_nil := by
    rintro rfl
    simp [wholeLike] at h
  digits := by
    simp only [wholeLike, Bool.and_eq_true, List.all_eq_true] at h
    exact h.1.2
  places := fun _ hfp => (Option.not_mem_none _ hfp).elim
  short := by
    simp only [wholeLike, Bool.and_eq_true, decide_eq_true_eq] at h
    exact h.2

/-- The characters of a numeral. -/
def Numeral.chars (n : Numeral) : List Char :=
  match n.frac with
  | none => n.whole
  | some fp => n.whole ++ '.' :: fp

/-- The literal that a numeral means: an integer of 32 bits, or 16 binary places. -/
def Numeral.literal (n : Numeral) : Literal :=
  match n.frac with
  | none => .literalInt (UInt32.ofNat (digitsValue n.whole))
  | some fp =>
      .literalFix (UInt32.ofNat
        (digitsValue n.whole % 2 ^ 16 * 2 ^ 16 + digitsValue fp * 2 ^ 16 / 10 ^ fp.length)).toInt32

/-- The characters of a string, between its quotes. -/
def StringText : Type := { body : List Char // '\'' ∉ body ∧ '\x00' ∉ body }

/-- Something that the lexer reads as one token. -/
inductive Spelled where
  | operator (op : Operator)
  | word (w : Word)
  | numeral (n : Numeral)
  | string (body : StringText)

/-- How it is written. -/
def Spelled.text : Spelled → List Char
  | .operator op => op.spelling
  | .word w => w.chars
  | .numeral n => n.chars
  | .string body => '\'' :: (body.val ++ ['\''])

/-- The string of the characters `s` with nothing behind them. -/
def wholeString (s : List Char) : SourceString := ⟨s, s.length⟩

/-- The type that the lexer gives to an operator. The brackets have changed places. -/
def Operator.lexed : Operator → TokenType
  | .lbracket => .tokenRbracket
  | .rbracket => .tokenLbracket
  | op => op.type

/-- The type and the value of what is written. -/
def Spelled.means : Spelled → TokenType × TokenValue
  | .operator op => (op.lexed, .none)
  | .word w =>
      if w.chars = "and".toList then (.tokenIdentifier, .identifier (wholeString w.chars))
      else spelling w.chars []
  | .numeral n => (.tokenLiteral, .literal n.literal)
  | .string body => (.tokenLiteral, .literal (.literalString (wholeString body.val)))

/-- The character `c` right behind it makes something else of it. -/
def Spelled.Extends : Spelled → Char → Prop
  | .operator op, c => op.Extends c
  | .word _, c => identifierChar c = true
  | .numeral _, c => identifierChar c = true ∨ c = '.'
  | .string _, _ => False

/-- The next one right behind it merges with it. -/
def Spelled.Merges (w next : Spelled) : Prop := ∃ c ∈ next.text.head?, w.Extends c

/-- The token says what is written. -/
structure Tells (t : Token) (w : Spelled) : Prop where
  type : t.type = w.means.1
  value : t.value.own = w.means.2.own

/-! ### Texts -/

/-- What is written, with the separators behind it. -/
structure Spaced where
  spelled : Spelled
  gap : List Separator

/-- The word with its gap behind it. -/
def Spaced.text (w : Spaced) : List Char := w.spelled.text ++ gapText w.gap

/-- A comment line stands right behind a `-`. -/
def Spaced.Swallowed (w : Spaced) : Prop :=
  w.spelled = .operator .sub ∧ ∃ body rest, w.gap = .comment body :: rest

/-- At the end of a source this word would be taken for `and`. -/
def Spelled.Anded (w : Spelled) : Prop := ∃ v, w = .word v ∧ v.chars ∈ andPrefixes

/-- A sequence of words, numerals, strings and operators with separators before, between and behind
them. -/
structure Text where
  lead : List Separator
  words : List Spaced
  apart : words.IsChain fun w next => w.gap = [] → ¬ w.spelled.Merges next.spelled
  kept : ∀ w ∈ words, ¬ w.Swallowed
  last : ∀ w ∈ words.getLast?, w.gap = [] → ¬ w.spelled.Anded

/-- The characters of the text. -/
def Text.text (t : Text) : List Char := gapText t.lead ++ t.words.flatMap Spaced.text

/-- What is written in the text, without the separators. -/
def Text.spelled (t : Text) : List Spelled := t.words.map (·.spelled)

/-- A numeral has digits and points only. -/
theorem Numeral.not_mem_chars {n : Numeral} {c : Char} (hnum : numericChar c = false)
    (hdot : c ≠ '.') : c ∉ n.chars := by
  have hdigits : ∀ {s : List Char}, (∀ d ∈ s, numericChar d = true) → c ∉ s := by
    intro s hs hmem
    rw [hs c hmem] at hnum
    cases hnum
  unfold Numeral.chars
  cases hfrac : n.frac with
  | none => exact hdigits n.digits
  | some fp =>
      rw [List.mem_append, List.mem_cons, not_or, not_or]
      exact ⟨hdigits n.digits, hdot, hdigits (n.places fp hfrac).2⟩

/-- What is spelled does not contain the end of a string. -/
theorem Spelled.nul_not_mem (w : Spelled) : '\x00' ∉ w.text := by
  cases w with
  | operator op => exact op.nul_not_mem_spelling
  | word w =>
      intro hmem
      exact absurd (w.ident _ hmem) (by decide)
  | numeral n => exact n.not_mem_chars (by decide) (by decide)
  | string body =>
      intro hmem
      have hbody : '\x00' ∈ body.val := by simpa [Spelled.text] using hmem
      exact body.property.2 hbody

/-- A text does not contain the end of a string, so it is read to its end. -/
theorem Text.nul_not_mem (t : Text) : '\x00' ∉ t.text := by
  intro hmem
  rcases List.mem_append.mp hmem with hlead | hwords
  · exact nul_not_mem_gapText _ hlead
  · obtain ⟨w, -, hw⟩ := List.mem_flatMap.mp hwords
    rcases List.mem_append.mp hw with hspelled | hgap
    · exact w.spelled.nul_not_mem hspelled
    · exact nul_not_mem_gapText _ hgap

/-- The source that consists of the text. -/
def Text.source (t : Text) : Source := ⟨t.text, t.nul_not_mem⟩

/-- The words one behind the other, with a space behind each of them. -/
def spaced (ws : List Spelled) : List Spaced := ws.map fun w => ⟨w, [.space]⟩

/-- The words of `spaced` have one space between them. -/
theorem gap_of_mem_spaced {ws : List Spelled} {w : Spaced} (h : w ∈ spaced ws) :
    w.gap = [.space] := by
  obtain ⟨v, -, rfl⟩ := List.mem_map.mp h
  rfl

/-- A way to lay out any words: with a space behind each of them. -/
def Text.ofWords (ws : List Spelled) : Text where
  lead := []
  words := spaced ws
  apart := by
    have hgap : ∀ w ∈ spaced ws, w.gap ≠ [] := by
      intro w hw
      rw [gap_of_mem_spaced hw]
      exact List.cons_ne_nil _ _
    -- no two words touch
    rw [List.isChain_iff_getElem]
    intro i hi hnil
    exact absurd hnil (hgap _ (List.getElem_mem _))
  kept := by
    rintro w hw ⟨-, body, rest, hgap⟩
    rw [gap_of_mem_spaced hw] at hgap
    cases hgap
  last := by
    intro w hw hnil
    rw [gap_of_mem_spaced (List.mem_of_getLast? hw)] at hnil
    cases hnil

/-- The text of some words spells these words. -/
@[simp] theorem spelled_ofWords (ws : List Spelled) : (Text.ofWords ws).spelled = ws := by
  show (spaced ws).map (·.spelled) = ws
  rw [spaced, List.map_map]
  exact List.map_id ws

end Nucleus.Spec
