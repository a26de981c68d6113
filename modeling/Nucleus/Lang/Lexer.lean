import Nucleus.Lang.Token
import Nucleus.Vm.Numeral

/-!
# `Nucleus.Lang.Lexer`: the lexer

`nulang__lexer_t` of `lang/lexer.h` and its functions, one definition a function. A lexer
reads its source through a pointer, a one-character peek buffer and a queue of peeked tokens.
Only `nulang__lexer_next` and `nulang__lexer_peek` touch the queue, so the functions below
them act on the rest of the lexer, which is `CharStream`.

A loop of the source that runs while `nulang__lexer_peek_char` succeeds consumes a character
in each turn. Its model recurses on the number of characters left (`CharStream.remaining`),
and its `0` arm is the end of the source.

A call that fails returns a `LexError`: the error code, and the span the call stores in
`lexer->error`, if it stores one. The digit loops of a numeral with `2 ^ 32` characters may run for
ever. The call that reads such a numeral does not return, and its `LexError` has no code.
-/

set_option autoImplicit false

namespace Nucleus.Lang

open Nucleus.Lib (wrapping)
open Nucleus.Vm

/-- A NUL-terminated source: the characters before its NUL. -/
def Source : Type := { text : List Char // '\x00' ∉ text }

/-- A call of the lexer that gives no token: its error code, none if the call never returns, and the
span it stores in the error data. -/
structure LexError where
  code : Option Error
  span : Option Span
  deriving DecidableEq, Repr

/-- The call that never returns. -/
def LexError.endless : LexError := ⟨none, none⟩

/-- What a call of the lexer returns: a token, or an error. -/
abbrev LexResult : Type := Except LexError Token

/-- The fields of `nulang__lexer_t` that read characters: the source, the stream and the
one-character peek buffer. `ptr` is the offset of the next character, `none` for `NU_NULL`. -/
structure CharStream where
  source : Source
  ptr : Option Nat
  nextLoc : Location
  peekChar : Char
  peekLoc : Location
  hasPeek : Bool

/-- `nulang__lexer_t`: the character stream, and the token queue as the list of its
`peek_count` entries. -/
structure Lexer where
  chars : CharStream
  peeks : List Token

/-- The stream of `nulang__lexer_init`. The peek buffer is not set by the source. -/
def streamInit (source : Source) : CharStream :=
  { source, ptr := some 0, nextLoc := ⟨1, 1, 0⟩, peekChar := '\x00', peekLoc := ⟨0, 0, 0⟩,
    hasPeek := false }

/-- `nulang__lexer_init`. -/
def lexerInit (source : Source) : Lexer := ⟨streamInit source, []⟩

/-- The text at `lexer->ptr - back`. -/
def CharStream.text (lexer : CharStream) (back : Nat) : List Char :=
  match lexer.ptr with
  | none => []
  | some i => lexer.source.val.drop (i - back)

/-- The characters not yet consumed. -/
def CharStream.remaining (lexer : CharStream) : Nat :=
  (match lexer.ptr with
    | none => 0
    | some i => lexer.source.val.length - i) + (if lexer.hasPeek then 1 else 0)

/-- `nulang__source_stream_next`: the next character with its location, `none` at the end. A
newline is read as a space and moves the location to the next line. -/
def sourceStreamNext (lexer : CharStream) : Option (Char × Location) × CharStream :=
  match lexer.ptr with
  | none => (none, lexer)
  | some i =>
      let loc := lexer.nextLoc
      let c := charAt lexer.source.val i
      if c = '\x00' then
        -- the pointer is cleared, so the end is read once
        (none, { lexer with ptr := none, nextLoc := { loc with index := loc.index + 1 } })
      else if c = '\n' then
        (some (' ', loc),
          { lexer with ptr := some (i + 1), nextLoc := ⟨loc.line + 1, 1, loc.index + 1⟩ })
      else
        (some (c, loc),
          { lexer with
              ptr := some (i + 1)
              nextLoc := ⟨loc.line, loc.column + 1, loc.index + 1⟩ })

/-- `nulang__lexer_next_char`. -/
def lexerNextChar (lexer : CharStream) : Option (Char × Location) × CharStream :=
  if lexer.hasPeek then
    (some (lexer.peekChar, lexer.peekLoc), { lexer with hasPeek := false })
  else
    sourceStreamNext lexer

/-- `nulang__lexer_peek_char`. -/
def lexerPeekChar (lexer : CharStream) : Option (Char × Location) × CharStream :=
  if lexer.hasPeek then
    (some (lexer.peekChar, lexer.peekLoc), lexer)
  else
    match sourceStreamNext lexer with
    | (none, next) =>
        -- the NUL is stored in the peek buffer when it is read, and not again after that
        if lexer.ptr = none then (none, { next with hasPeek := false })
        else
          (none, { next with hasPeek := false, peekChar := '\x00', peekLoc := lexer.nextLoc })
    | (some (c, loc), lexer) =>
        (some (c, loc), { lexer with hasPeek := true, peekChar := c, peekLoc := loc })

/-- `nulang__consume_char`. -/
def consumeChar (lexer : CharStream) : CharStream := (lexerNextChar lexer).2

/-- `nulang__consume_single_char_token`. -/
def consumeSingleCharToken (lexer : CharStream) (type : TokenType) (loc : Location) :
    LexResult × CharStream :=
  (.ok (Token.single type loc), consumeChar lexer)

/-- The loop of `nulang__consume_comment`: it stops at the first character of another line. -/
def consumeCommentLoop (startLoc : Location) : Nat → CharStream → CharStream
  | 0, lexer => lexer
  | fuel + 1, lexer =>
      match lexerPeekChar lexer with
      | (none, lexer) => lexer
      | (some (_, loc), lexer) =>
          if loc.line ≠ startLoc.line then lexer
          else consumeCommentLoop startLoc fuel (consumeChar lexer)

/-- `nulang__consume_comment`. -/
def consumeComment (lexer : CharStream) : CharStream :=
  let lexer := (lexerPeekChar lexer).2
  consumeCommentLoop lexer.peekLoc (lexer.remaining + 1) lexer

/-- The loop of `nulang__consume_spaces`. -/
def consumeSpacesLoop : Nat → CharStream → CharStream
  | 0, lexer => lexer
  | fuel + 1, lexer =>
      match lexerPeekChar lexer with
      | (none, lexer) => lexer
      | (some (c, _), lexer) =>
          if c ≠ ' ' then lexer else consumeSpacesLoop fuel (consumeChar lexer)

/-- `nulang__consume_spaces`. -/
def consumeSpaces (lexer : CharStream) : CharStream :=
  consumeSpacesLoop (lexer.remaining + 1) lexer

/-- The loop of `nulang__consume_string`: `s` is the text after the opening quote and `n` the
number of characters read so far. -/
def consumeStringLoop (startLoc : Location) (s : List Char) :
    Nat → Nat → CharStream → LexResult × CharStream
  | 0, _, lexer => (.error ⟨some .unterminatedString, some ⟨startLoc, startLoc⟩⟩, lexer)
  | fuel + 1, n, lexer =>
      match lexerPeekChar lexer with
      | (none, lexer) => (.error ⟨some .unterminatedString, some ⟨startLoc, startLoc⟩⟩, lexer)
      | (some (c, loc), lexer) =>
          let lexer := consumeChar lexer
          if c = '\'' then
            (.ok ⟨.tokenLiteral, ⟨startLoc, loc⟩, .literal (.literalString ⟨s, n⟩)⟩, lexer)
          else consumeStringLoop startLoc s fuel (n + 1) lexer

/-- `nulang__consume_string`, at its opening quote. -/
def consumeString (lexer : CharStream) : LexResult × CharStream :=
  match lexerNextChar lexer with
  | (none, lexer) => (.ok Token.eof, lexer)
  | (some (_, startLoc), lexer) =>
      consumeStringLoop startLoc (lexer.text 0) (lexer.remaining + 1) 0 lexer

/-- The loop of `nulang__consume_number`. The locals are `stop_loc`, `n` and `has_dot`. -/
def consumeNumberLoop (startLoc : Location) :
    Nat → Location → Nat → Bool → CharStream → Except LexError (Location × Nat × Bool) × CharStream
  | 0, stopLoc, n, hasDot, lexer => (.ok (stopLoc, n, hasDot), lexer)
  | fuel + 1, stopLoc, n, hasDot, lexer =>
      match lexerPeekChar lexer with
      | (none, lexer) => (.ok (stopLoc, n, hasDot), lexer)
      | (some (c, loc), lexer) =>
          if numericChar c ∨ c = '.' then
            -- a second dot is an error, and it is not consumed
            if c = '.' ∧ hasDot then
              (.error ⟨some .illegalCharacter, some ⟨startLoc, loc⟩⟩, lexer)
            else
              consumeNumberLoop startLoc fuel loc (n + 1) (hasDot || c = '.')
                (consumeChar lexer)
          -- a letter may not stand right behind a numeral
          else if identifierChar c then
            (.error ⟨some .illegalCharacter, some ⟨startLoc, stopLoc⟩⟩, lexer)
          else
            (.ok (stopLoc, n, hasDot), lexer)

/-- Turns enough for the digit loop of a numeral of `n` characters. It comes to its end in one
round, or a dot makes it stop with an error in the second round at the latest, or it never ends. -/
def digitTurns (n : Nat) : Nat := n + 8

/-- The numeral `s[0..n)` as a literal token, the second half of `nulang__consume_number`. The local
`v` has some content before the call. -/
def numberToken (span : Span) (s : List Char) (n : Nat) (hasDot : Bool) : LexResult :=
  if hasDot then
    match fparseCall wrapping (digitTurns n) s n 0 with
    | none => .error .endless
    | some (.error _, _) => .error ⟨some .parseFixedPoint, some span⟩
    | some (.ok _, v) => .ok ⟨.tokenLiteral, span, .literal (.literalFix v)⟩
  else
    match iparseCall (digitTurns n) s n 0 with
    | none => .error .endless
    | some (.error _, _) => .error ⟨some .illegalCharacter, some span⟩
    | some (.ok _, v) => .ok ⟨.tokenLiteral, span, .literal (.literalInt v.toUInt32)⟩

/-- `nulang__consume_number`, at its first digit. -/
def consumeNumber (lexer : CharStream) : LexResult × CharStream :=
  let s := lexer.text 1
  let lexer := (lexerPeekChar lexer).2
  let startLoc := lexer.peekLoc
  match consumeNumberLoop startLoc (lexer.remaining + 1) startLoc 0 false lexer with
  | (.error e, lexer) => (.error e, lexer)
  | (.ok (stopLoc, n, hasDot), lexer) => (numberToken ⟨startLoc, stopLoc⟩ s n hasDot, lexer)

/-- The loop of `nulang__consume_identifier`. The locals are `stop_loc` and `n`. -/
def consumeIdentifierLoop : Nat → Location → Nat → CharStream → (Location × Nat) × CharStream
  | 0, stopLoc, n, lexer => ((stopLoc, n), lexer)
  | fuel + 1, stopLoc, n, lexer =>
      match lexerPeekChar lexer with
      | (none, lexer) => ((stopLoc, n), lexer)
      | (some (c, loc), lexer) =>
          if identifierChar c = false then ((stopLoc, n), lexer)
          else consumeIdentifierLoop fuel loc (n + 1) (consumeChar lexer)

/-- The keyword chain of `nulang__consume_identifier`: `none` when no keyword matches. The
test for `and` has its two strings the other way round, as in the source. -/
def keywordType (s : List Char) (n : Nat) : Option TokenType :=
  if matchToken s "import".toList n then some .tokenImport
  else if matchToken s "from".toList n then some .tokenFrom
  else if matchToken s "export".toList n then some .tokenExport
  -- the swapped arguments
  else if matchToken "and".toList s n then some .tokenAnd
  else if matchToken s "or".toList n then some .tokenOr
  else if matchToken s "not".toList n then some .tokenNot
  else if matchToken s "let".toList n then some .tokenLet
  else if matchToken s "if".toList n then some .tokenIf
  else if matchToken s "then".toList n then some .tokenThen
  else if matchToken s "else".toList n then some .tokenElse
  else if matchToken s "elif".toList n then some .tokenElif
  else if matchToken s "end".toList n then some .tokenEnd
  else if matchToken s "do".toList n then some .tokenDo
  else if matchToken s "for".toList n then some .tokenFor
  else if matchToken s "in".toList n then some .tokenIn
  else if matchToken s "while".toList n then some .tokenWhile
  else if matchToken s "function".toList n then some .tokenFunction
  else if matchToken s "break".toList n then some .tokenBreak
  else if matchToken s "continue".toList n then some .tokenContinue
  else if matchToken s "return".toList n then some .tokenReturn
  else if matchToken s "insert".toList n then some .tokenInsert
  else if matchToken s "delete".toList n then some .tokenDelete
  else if matchToken s "singleton".toList n then some .tokenSingleton
  else if matchToken s "iter".toList n then some .tokenIter
  else if matchToken s "next".toList n then some .tokenNext
  else none

/-- The literal words of `nulang__consume_identifier`. -/
def literalWord (s : List Char) (n : Nat) : Option Literal :=
  if matchToken s "true".toList n then some (.literalBool true)
  else if matchToken s "false".toList n then some (.literalBool false)
  else if matchToken s "nil".toList n then some .literalNil
  else none

/-- The primitive names of `nulang__consume_identifier`. `str` is an integer for now. -/
def primitiveWord (s : List Char) (n : Nat) : Option Primitive :=
  if matchToken s "int".toList n then some .int
  else if matchToken s "fix".toList n then some .fix
  else if matchToken s "str".toList n then some .int
  else if matchToken s "vec2".toList n then some .vec2
  else if matchToken s "vec3".toList n then some .vec3
  else if matchToken s "vec4".toList n then some .vec4
  else if matchToken s "ivec2".toList n then some .ivec2
  else if matchToken s "ivec3".toList n then some .ivec3
  else if matchToken s "ivec4".toList n then some .ivec4
  else none

/-- The type and the value of the word `s[0..n)`: keyword, literal, primitive or identifier,
in this order. -/
def wordToken (s : List Char) (n : Nat) : TokenType × TokenValue :=
  match keywordType s n with
  | some t => (t, .none)
  | none =>
      match literalWord s n with
      | some l => (.tokenLiteral, .literal l)
      | none =>
          match primitiveWord s n with
          | some p => (.tokenPrimitive, .primitive p)
          | none => (.tokenIdentifier, .identifier ⟨s, n⟩)

/-- `nulang__consume_identifier`, at its first character. -/
def consumeIdentifier (lexer : CharStream) : LexResult × CharStream :=
  let s := lexer.text 1
  let lexer := (lexerPeekChar lexer).2
  let startLoc := lexer.peekLoc
  match consumeIdentifierLoop (lexer.remaining + 1) startLoc 0 lexer with
  | ((stopLoc, n), lexer) =>
      (.ok ⟨(wordToken s n).1, ⟨startLoc, stopLoc⟩, (wordToken s n).2⟩, lexer)

/-- The cases of `nulang__lexer_parse_token` that are one character long whatever follows.
The brackets carry each other's names in the source. -/
def singleCharType (c : Char) : Option TokenType :=
  if c = '+' then some .tokenAdd
  else if c = '*' then some .tokenMul
  else if c = '/' then some .tokenDiv
  else if c = '(' then some .tokenLparen
  else if c = ')' then some .tokenRparen
  else if c = ']' then some .tokenLbracket
  else if c = '[' then some .tokenRbracket
  else if c = ',' then some .tokenComma
  else if c = '.' then some .tokenDot
  else if c = ':' then some .tokenColon
  else none

/-- The cases that a following `=` extends: the type with it, and the type without it. `!`
stands for nothing alone. -/
def doubleCharType (c : Char) : Option (TokenType × Option TokenType) :=
  if c = '=' then some (.tokenEqual, some .tokenAssign)
  else if c = '<' then some (.tokenLequal, some .tokenLess)
  else if c = '>' then some (.tokenGequal, some .tokenGreater)
  else if c = '!' then some (.tokenNequal, none)
  else none

/-- A case of `doubleCharType` at its first character, whose location is `loc`. An `!` without
`=` is an error that stores no span. -/
def consumeDoubleCharToken (lexer : CharStream) (double : TokenType) (single : Option TokenType)
    (loc : Location) : LexResult × CharStream :=
  let lexer := consumeChar lexer
  let result : LexResult :=
    match single with
    | some t => .ok (Token.single t loc)
    | none => .error ⟨some .illegalCharacter, none⟩
  match lexerPeekChar lexer with
  | (none, lexer) => (result, lexer)
  | (some (next, _), lexer) =>
      if next = '=' then (.ok (Token.double double loc), consumeChar lexer)
      else (result, lexer)

/-- The loop of `nulang__lexer_parse_token`. A comment, spaces and a character that starts no
token go back to its head. -/
def lexerParseTokenLoop : Nat → CharStream → LexResult × CharStream
  | 0, lexer => (.ok Token.eof, lexer)
  | fuel + 1, lexer =>
      match lexerPeekChar lexer with
      | (none, lexer) => (.ok Token.eof, lexer)
      | (some (c, loc), lexer) =>
          match singleCharType c, doubleCharType c with
          | some type, _ => consumeSingleCharToken lexer type loc
          | none, some (double, single) => consumeDoubleCharToken lexer double single loc
          | none, none =>
              if c = '-' then
                let lexer := consumeChar lexer
                match lexerPeekChar lexer with
                | (none, lexer) => (.ok (Token.single .tokenSub loc), lexer)
                | (some (next, _), lexer) =>
                    if next = '-' then
                      lexerParseTokenLoop fuel (consumeComment (consumeChar lexer))
                    else (.ok (Token.single .tokenSub loc), lexer)
              else if c = ' ' then lexerParseTokenLoop fuel (consumeSpaces lexer)
              else if c = '\'' then consumeString lexer
              else if numericChar c then consumeNumber lexer
              else if identifierChar c then consumeIdentifier lexer
              -- the default branch drops the character
              else lexerParseTokenLoop fuel (consumeChar lexer)

/-- `nulang__lexer_parse_token`. -/
def lexerParseToken (lexer : CharStream) : LexResult × CharStream :=
  lexerParseTokenLoop (lexer.remaining + 1) lexer

/-- `nulang__lexer_next`. -/
def lexerNext (lexer : Lexer) : LexResult × Lexer :=
  match lexer.peeks with
  | [] =>
      match lexerParseToken lexer.chars with
      | (result, chars) => (result, { lexer with chars })
  | token :: rest => (.ok token, { lexer with peeks := rest })

/-- The loop of `nulang__lexer_peek`: it fills the queue up to `lookahead`. -/
def lexerPeekLoop (lookahead : Nat) : Nat → Lexer → LexResult × Lexer
  | 0, lexer => (.ok (lexer.peeks.getD lookahead Token.eof), lexer)
  | fuel + 1, lexer =>
      match lexerParseToken lexer.chars with
      -- what is queued already stays in the queue
      | (.error e, chars) => (.error e, { lexer with chars })
      | (.ok token, chars) => lexerPeekLoop lookahead fuel ⟨chars, lexer.peeks ++ [token]⟩

/-- `nulang__lexer_peek`. -/
def lexerPeek (lexer : Lexer) (lookahead : Nat) : LexResult × Lexer :=
  lexerPeekLoop lookahead (lookahead + 1 - lexer.peeks.length) lexer

end Nucleus.Lang
