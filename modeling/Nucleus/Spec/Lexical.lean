import Nucleus.Lang.Lexer

/-!
# `Nucleus.Spec.Lexical`: the lexical grammar

What one call of the lexer reads, in terms of the source text only. `Skips s rest` says that
the characters `s` are white space, comments and characters that start no token. `Item pre
used rest r` says that the characters `used`, which stand between `pre` and `rest`, are one
token or one lexical error, with the result `r`.
-/

set_option autoImplicit false

namespace Nucleus.Spec

open Nucleus.Vm
open Nucleus.Lang

/-! ### Characters and locations -/

/-- The character that the stream gives for `c`. -/
def readChar (c : Char) : Char := if c = '\n' then ' ' else c

/-- The location after a character. -/
def locationStep (loc : Location) (c : Char) : Location :=
  if c = '\n' then ⟨loc.line + 1, 1, loc.index + 1⟩ else ⟨loc.line, loc.column + 1, loc.index + 1⟩

/-- The location after the characters `pre`. -/
def locationAfter (pre : List Char) : Location := pre.foldl locationStep ⟨1, 1, 0⟩

/-- The location behind one more character. -/
theorem locationAfter_snoc (pre : List Char) (c : Char) :
    locationAfter (pre ++ [c]) = locationStep (locationAfter pre) c := by
  simp [locationAfter]

/-- A character that the lexer reads as a space. -/
def isSpace (c : Char) : Bool := readChar c = ' '

/-- The newline is not an identifier character, so reading keeps the character class. -/
theorem identifierChar_readChar (c : Char) : identifierChar (readChar c) = identifierChar c := by
  unfold readChar
  split
  · rename_i h
    subst h
    decide
  · rfl

/-- A character read as a space is no digit before or after. -/
theorem numericChar_readChar (c : Char) : numericChar (readChar c) = numericChar c := by
  unfold readChar
  split
  · rename_i h
    subst h
    decide
  · rfl

/-- Only spaces are read as another character than they are. -/
theorem readChar_eq_iff {c d : Char} (hd : d ≠ ' ') (hd' : d ≠ '\n') :
    readChar c = d ↔ c = d := by
  unfold readChar
  split
  · rename_i h
    subst h
    simp [Ne.symm hd, Ne.symm hd']
  · rfl

/-- The location of the last character of `used`, which follows `pre`; `stop` if there is
none. -/
def lastLocation (pre used : List Char) (stop : Location) : Location :=
  if used = [] then stop else locationAfter (pre ++ used.dropLast)

/-- The last location behind one more character. -/
theorem lastLocation_cons (pre used : List Char) (c : Char) (stop : Location) :
    lastLocation pre (c :: used) stop = lastLocation (pre ++ [c]) used (locationAfter pre) := by
  unfold lastLocation
  cases used with
  | nil => simp
  | cons d used => simp

/-- The longest prefix of digits with at most one dot, none if there was one before. -/
def numeralPrefix : Bool → List Char → List Char
  | _, [] => []
  | hasDot, c :: rest =>
      if numericChar c then c :: numeralPrefix hasDot rest
      else if c = '.' ∧ hasDot = false then c :: numeralPrefix true rest
      else []

/-- What follows the numeral. -/
def numeralRest : Bool → List Char → List Char
  | _, [] => []
  | hasDot, c :: rest =>
      if numericChar c then numeralRest hasDot rest
      else if c = '.' ∧ hasDot = false then numeralRest true rest
      else c :: rest

/-- The text is split behind the numeral. -/
theorem numeralPrefix_append_numeralRest (hasDot : Bool) (rest : List Char) :
    numeralPrefix hasDot rest ++ numeralRest hasDot rest = rest := by
  induction rest generalizing hasDot with
  | nil => rfl
  | cons c rest ih =>
      simp only [numeralPrefix, numeralRest]
      split
      · simp [ih]
      · split
        · simp [ih]
        · rfl

/-- The characters of a numeral are digits and dots. -/
theorem numeral_of_mem_numeralPrefix {hasDot : Bool} {rest : List Char} {c : Char}
    (h : c ∈ numeralPrefix hasDot rest) : numericChar c = true ∨ c = '.' := by
  induction rest generalizing hasDot with
  | nil => simp [numeralPrefix] at h
  | cons d rest ih =>
      simp only [numeralPrefix] at h
      split at h
      · rename_i hd
        rcases List.mem_cons.mp h with rfl | h
        · exact Or.inl hd
        · exact ih h
      · split at h
        · rename_i hd
          rcases List.mem_cons.mp h with rfl | h
          · exact Or.inr hd.1
          · exact ih h
        · simp at h

/-! ### Words -/

/-- The value of the first entry whose key passes the test. -/
def firstMatch {α β : Type} (test : α → Bool) : List (α × β) → Option β
  | [] => none
  | e :: es => if test e.1 then some e.2 else firstMatch test es

/-- What is found is the value of an entry that passes the test. -/
theorem firstMatch_mem {α β : Type} {test : α → Bool} {es : List (α × β)} {b : β}
    (h : firstMatch test es = some b) : ∃ a, (a, b) ∈ es ∧ test a = true := by
  induction es with
  | nil => cases h
  | cons e es ih =>
      rw [firstMatch] at h
      split at h
      · rename_i htest
        cases h
        exact ⟨e.1, by simp, htest⟩
      · obtain ⟨a, hmem, htest⟩ := ih h
        exact ⟨a, List.mem_cons_of_mem _ hmem, htest⟩

/-- The search depends on the test of the entries only. -/
theorem firstMatch_congr {α β : Type} {test test' : α → Bool} {es : List (α × β)}
    (h : ∀ e ∈ es, test e.1 = test' e.1) : firstMatch test es = firstMatch test' es := by
  induction es with
  | nil => rfl
  | cons e es ih =>
      rw [firstMatch, firstMatch, h e (by simp),
        ih fun e' he' => h e' (List.mem_cons_of_mem _ he')]

/-- The keywords, in the order of the lexer's tests. -/
def keywords : List (String × TokenType) :=
  [("import", .tokenImport), ("from", .tokenFrom), ("export", .tokenExport), ("and", .tokenAnd),
    ("or", .tokenOr), ("not", .tokenNot), ("let", .tokenLet), ("if", .tokenIf),
    ("then", .tokenThen), ("else", .tokenElse), ("elif", .tokenElif), ("end", .tokenEnd),
    ("do", .tokenDo), ("for", .tokenFor), ("in", .tokenIn), ("while", .tokenWhile),
    ("function", .tokenFunction), ("break", .tokenBreak), ("continue", .tokenContinue),
    ("return", .tokenReturn), ("insert", .tokenInsert), ("delete", .tokenDelete),
    ("singleton", .tokenSingleton), ("iter", .tokenIter), ("next", .tokenNext)]

/-- The words that are literals. -/
def literalWords : List (String × Literal) :=
  [("true", .literalBool true), ("false", .literalBool false), ("nil", .literalNil)]

/-- The names of the primitives. -/
def primitiveNames : List (String × Primitive) :=
  [("int", .int), ("fix", .fix), ("str", .int), ("vec2", .vec2), ("vec3", .vec3),
    ("vec4", .vec4), ("ivec2", .ivec2), ("ivec3", .ivec3), ("ivec4", .ivec4)]

/-! ### The results of a source -/

/-- The results of repeated calls of `nulang__lexer_next` up to the end of the source. A call
that fails gives its error, and the calls go on behind it. -/
def lexResults : Nat → Lexer → List LexResult
  | 0, _ => []
  | fuel + 1, lexer =>
      match lexerNext lexer with
      | (.error e, lexer) => .error e :: lexResults fuel lexer
      | (.ok token, lexer) =>
          if token.type = .tokenEof then [] else .ok token :: lexResults fuel lexer

/-- The results of lexing a whole source. Each call before the end consumes a character, so
one call more than there are characters is enough. -/
def resultsOf (source : Source) : List LexResult :=
  lexResults (source.val.length + 1) (lexerInit source)

/-- The span of a result: that of the token, or the one that the error stores. -/
def resultSpan : LexResult → Option Span
  | .ok token => some token.span
  | .error e => e.span

/-- The span is that of a result of the source, or that of its end. -/
def Stands (source : Source) (s : Span) : Prop :=
  s = Token.eof.span ∨ ∃ r ∈ resultsOf source, resultSpan r = some s

/-! ### Skipped characters and items -/

/-- A character that starts no token and is no space. -/
def startsNothing (c : Char) : Prop :=
  singleCharType c = none ∧ doubleCharType c = none ∧ c ≠ '-' ∧ c ≠ '\'' ∧ isSpace c = false ∧
    identifierChar c = false

/-- White space, comments and characters that start no token, before `rest`. -/
inductive Skips : List Char → List Char → Prop where
  | nil {rest : List Char} : Skips [] rest
  | space {c : Char} {s rest : List Char} : isSpace c = true → Skips s rest → Skips (c :: s) rest
  | comment {body s rest : List Char} :
      '\n' ∉ body → Skips s rest → Skips ('-' :: '-' :: (body ++ '\n' :: s)) rest
  | lastComment {body : List Char} : '\n' ∉ body → Skips ('-' :: '-' :: body) []
  | nothing {c : Char} {s rest : List Char} :
      startsNothing c → Skips s rest → Skips (c :: s) rest

/-- One token or one lexical error: the characters `used` between `pre` and `rest`. -/
inductive Item (pre : List Char) : List Char → List Char → LexResult → Prop where
  | single {c : Char} {t : TokenType} {rest : List Char} :
      singleCharType c = some t → Item pre [c] rest (.ok (Token.single t (locationAfter pre)))
  | double {c : Char} {d : TokenType} {o : Option TokenType} {rest : List Char} :
      doubleCharType c = some (d, o) →
      Item pre [c, '='] rest (.ok (Token.double d (locationAfter pre)))
  | half {c : Char} {d t : TokenType} {rest : List Char} :
      doubleCharType c = some (d, some t) → rest.head? ≠ some '=' →
      Item pre [c] rest (.ok (Token.single t (locationAfter pre)))
  | bang {c : Char} {d : TokenType} {rest : List Char} :
      doubleCharType c = some (d, none) → rest.head? ≠ some '=' →
      Item pre [c] rest (.error ⟨some .illegalCharacter, none⟩)
  | sub {rest : List Char} :
      rest.head? ≠ some '-' → Item pre ['-'] rest (.ok (Token.single .tokenSub (locationAfter pre)))
  | string {body rest : List Char} :
      '\'' ∉ body →
      Item pre ('\'' :: (body ++ ['\''])) rest
        (.ok ⟨.tokenLiteral, ⟨locationAfter pre, locationAfter (pre ++ '\'' :: body)⟩,
          .literal (.literalString ⟨body ++ '\'' :: rest, body.length⟩)⟩)
  | openString {body : List Char} :
      '\'' ∉ body →
      Item pre ('\'' :: body) []
        (.error ⟨some .unterminatedString, some ⟨locationAfter pre, locationAfter pre⟩⟩)
  | number {c : Char} {used rest : List Char} :
      numericChar c = true → numeralPrefix false (c :: used ++ rest) = c :: used →
      (∀ d ∈ rest.head?, d ≠ '.' ∧ identifierChar d = false) →
      Item pre (c :: used) rest
        (numberToken ⟨locationAfter pre, locationAfter (pre ++ (c :: used).dropLast)⟩
          (c :: used ++ rest) (c :: used).length (decide ('.' ∈ c :: used)))
  | badNumber {c : Char} {used rest : List Char} {stop : Location} :
      numericChar c = true → numeralPrefix false (c :: used ++ rest) = c :: used →
      Item pre (c :: used) rest
        (.error ⟨some .illegalCharacter, some ⟨locationAfter pre, stop⟩⟩)
  | word {c : Char} {used rest : List Char} :
      numericChar c = false → (∀ d ∈ c :: used, identifierChar d = true) →
      (∀ d ∈ rest.head?, identifierChar d = false) →
      Item pre (c :: used) rest
        (.ok ⟨(wordToken (c :: used ++ rest) (c :: used).length).1,
          ⟨locationAfter pre, locationAfter (pre ++ (c :: used).dropLast)⟩,
          (wordToken (c :: used ++ rest) (c :: used).length).2⟩)

/-- Two skips one behind the other. -/
theorem Skips.append {s t rest : List Char} (hs : Skips s (t ++ rest)) (ht : Skips t rest) :
    Skips (s ++ t) rest := by
  generalize hr : t ++ rest = r at hs
  induction hs with
  | nil => exact ht
  | space hc _ ih => exact .space hc (ih hr)
  | comment hbody _ ih =>
      have := Skips.comment hbody (ih hr)
      simpa using this
  | lastComment hbody =>
      obtain ⟨rfl, rfl⟩ := List.append_eq_nil_iff.mp hr
      rw [List.append_nil]
      exact .lastComment hbody
  | nothing hc _ ih => exact .nothing hc (ih hr)

/-- Spaces are skipped. -/
theorem Skips.of_spaces {s rest : List Char} (h : ∀ c ∈ s, isSpace c = true) : Skips s rest := by
  induction s with
  | nil => exact .nil
  | cons c s ih =>
      exact .space (h c (by simp)) (ih fun d hd => h d (List.mem_cons_of_mem _ hd))

/-- An item consumes at least one character. -/
theorem Item.used_ne_nil {pre used rest : List Char} {r : LexResult} (h : Item pre used rest r) :
    used ≠ [] := by
  cases h <;> simp

end Nucleus.Spec
