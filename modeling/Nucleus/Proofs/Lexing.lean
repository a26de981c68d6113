import Nucleus.Lang.TokenSource
import Nucleus.Proofs.Chars

/-!
# `Nucleus.Proofs.Lexing`: one call of the lexer, and all of them

`lexerParseToken_spec`: a call skips what starts no token and then reads one item of the
lexical grammar, or it comes to the end of the source and stays there.

`lexResults` is the sequence of results that repeated calls give. The lexer is a lawful token
source of it (`reads_lexerInit`).
-/

set_option autoImplicit false

namespace Nucleus.Proofs

open Nucleus.Vm
open Nucleus.Lang
open Nucleus.Spec

/-! ### Tokens of one and two characters -/

/-- The characters that are a token alone. -/
def singleChars : List (Char × TokenType) :=
  [('+', .tokenAdd), ('*', .tokenMul), ('/', .tokenDiv), ('(', .tokenLparen), (')', .tokenRparen),
    (']', .tokenLbracket), ('[', .tokenRbracket), (',', .tokenComma), ('.', .tokenDot),
    (':', .tokenColon)]

/-- The characters that an `=` extends. -/
def doubleChars : List (Char × TokenType × Option TokenType) :=
  [('=', .tokenEqual, some .tokenAssign), ('<', .tokenLequal, some .tokenLess),
    ('>', .tokenGequal, some .tokenGreater), ('!', .tokenNequal, none)]

section
variable {c : Char} {t d : TokenType} {o : Option TokenType}

/-- The test of the single characters is a search in the table. -/
theorem singleCharType_eq (c : Char) :
    singleCharType c = firstMatch (fun d => c = d) singleChars := by
  simp only [singleCharType, singleChars, firstMatch, decide_eq_true_eq]

/-- The test of the characters that `=` may follow is a search in the table. -/
theorem doubleCharType_eq (c : Char) :
    doubleCharType c = firstMatch (fun d => c = d) doubleChars := by
  simp only [doubleCharType, doubleChars, firstMatch, decide_eq_true_eq]

/-- What the search finds is in the table. -/
theorem singleCharType_mem (h : singleCharType c = some t) : (c, t) ∈ singleChars := by
  rw [singleCharType_eq] at h
  obtain ⟨d, hmem, hd⟩ := firstMatch_mem h
  rw [decide_eq_true_eq] at hd
  rwa [hd]

/-- What the search finds is in the table. -/
theorem doubleCharType_mem (h : doubleCharType c = some (d, o)) : (c, d, o) ∈ doubleChars := by
  rw [doubleCharType_eq] at h
  obtain ⟨e, hmem, he⟩ := firstMatch_mem h
  rw [decide_eq_true_eq] at he
  rwa [he]

/-- A property that the entries of the table have. -/
theorem of_singleChars {P : Char × TokenType → Bool} (hP : singleChars.all P = true)
    (h : singleCharType c = some t) : P (c, t) = true :=
  List.all_eq_true.mp hP _ (singleCharType_mem h)

/-- A property that the entries of the second table have. -/
theorem of_doubleChars {P : Char × TokenType × Option TokenType → Bool}
    (hP : doubleChars.all P = true) (h : doubleCharType c = some (d, o)) : P (c, d, o) = true :=
  List.all_eq_true.mp hP _ (doubleCharType_mem h)

/-- A single character token is no part of a name. -/
theorem identifierChar_single (h : singleCharType c = some t) : identifierChar c = false := by
  have htable := of_singleChars (P := fun e => !identifierChar e.1) (by decide) h
  simpa using htable

/-- A character that `=` may follow is no part of a name. -/
theorem identifierChar_double (h : doubleCharType c = some (d, o)) : identifierChar c = false := by
  have htable := of_doubleChars (P := fun e => !identifierChar e.1) (by decide) h
  simpa using htable

/-- The types that a value or the end belongs to. -/
def specialTypes : List TokenType := [.tokenEof, .tokenPrimitive, .tokenIdentifier]

/-- A single character is no token with a value. -/
theorem singleCharType_notMem (h : singleCharType c = some t) : t ∉ specialTypes := by
  have htable := of_singleChars (P := fun e => e.2 ∉ specialTypes) (by decide) h
  simpa using htable

/-- A character that `=` may follow is no token with a value, extended or not. -/
theorem doubleCharType_notMem (h : doubleCharType c = some (d, o)) :
    d ∉ specialTypes ∧ ∀ t, o = some t → t ∉ specialTypes := by
  have htable := of_doubleChars
    (P := fun e => e.2.1 ∉ specialTypes ∧ ∀ t ∈ e.2.2, t ∉ specialTypes) (by decide) h
  simpa using htable

end

/-- A digit is an identifier character. -/
theorem numericChar_of_identifierChar {c : Char} (h : identifierChar c = false) :
    numericChar c = false := by
  cases hdigit : numericChar c with
  | false => rfl
  | true =>
      rw [identifierChar, hdigit] at h
      simp at h

/-! ### The items -/

/-- A comment is read up to its line break and with it, or up to the end of the source. -/
theorem consumeComment_spec {l : CharStream} {pre rest : List Char} (h : Fresh l pre rest) :
    ∃ used rest', used ++ rest' = rest ∧ Reading (consumeComment l) (pre ++ used) rest' ∧
      ((used = rest ∧ rest' = [] ∧ '\n' ∉ rest) ∨ ∃ body, '\n' ∉ body ∧ used = body ++ ['\n']) := by
  unfold consumeComment
  cases rest with
  | nil =>
      obtain ⟨l', hpeek, h'⟩ := (Reading.fresh h).lexerPeekChar_nil
      rw [hpeek]
      simp only [consumeCommentLoop, h'.lexerPeekChar]
      exact ⟨[], [], rfl, by simpa using Reading.ended h', Or.inl ⟨rfl, rfl, by simp⟩⟩
  | cons c rest =>
      obtain ⟨l', hpeek, h'⟩ := (Reading.fresh h).lexerPeekChar_cons
      rw [hpeek]
      have hread := Reading.peeked h'
      have hrem := hread.remaining_eq
      -- the bound of the loop is what remains of the source
      refine consumeCommentLoop_spec ?_ hread (by rw [h'.peekLoc])
      simp only [hrem]
      exact Nat.lt_succ_self _

/-- A string is read up to its second quote, and without one it is an error at the end. -/
theorem consumeString_spec {l : CharStream} {pre rest : List Char}
    (h : Peeked l pre '\'' rest) :
    ∃ r l' used rest', consumeString l = (r, l') ∧ '\'' :: rest = used ++ rest' ∧
      Item pre used rest' r ∧ Reading l' (pre ++ used) rest' := by
  obtain ⟨l₁, hnext, h₁⟩ := h.lexerNextChar
  unfold consumeString
  rw [hnext]
  have hread := Reading.fresh h₁
  -- the loop starts behind the quote, with the text of the string still empty
  have hfuel : rest.length < l₁.remaining + 1 := by
    rw [hread.remaining_eq]
    exact Nat.lt_succ_self _
  obtain ⟨r, l', hloop, hcase⟩ :=
    consumeStringLoop_spec (locationAfter pre) (l₁.text 0) 0 hfuel hread
  refine ⟨r, l', ?_⟩
  rcases hcase with ⟨body, rest', rfl, hbody, hres, h'⟩ | ⟨hmem, hres, h'⟩
  · refine ⟨'\'' :: (body ++ ['\'']), rest', hloop, by simp, ?_, by simpa using h'⟩
    rw [hres, h₁.text_zero]
    have hitem : Item pre ('\'' :: (body ++ ['\''])) rest' _ := Item.string hbody
    simpa using hitem
  · -- no quote follows, and the loop stops at the end of the source
    refine ⟨'\'' :: rest, [], hloop, by simp, ?_, by simpa using h'⟩
    rw [hres]
    exact .openString hmem

/-- A numeral with nothing else right behind it gives its token, and is not rejected by the lexer.
-/
def NumberOf (pre used rest : List Char) (r : LexResult) : Prop :=
  ∀ c ∈ used.head?, numericChar c = true → NumeralEnds rest →
    r = numberToken ⟨locationAfter pre, locationAfter (pre ++ used.dropLast)⟩ (used ++ rest)
      used.length (decide ('.' ∈ used))

/-- A numeral is one item, and with nothing going on with it the item is its token. -/
theorem consumeNumber_spec {l : CharStream} {pre rest : List Char} {c : Char}
    (h : Peeked l pre c rest) (hc : numericChar c = true) :
    ∃ r l' used rest', consumeNumber l = (r, l') ∧ c :: rest = used ++ rest' ∧
      Item pre used rest' r ∧ NumberOf pre used rest' r ∧ Reading l' (pre ++ used) rest' := by
  have hread := Reading.peeked h
  obtain ⟨l₁, hpeek, h₁⟩ := hread.lexerPeekChar_cons
  have hread₁ := Reading.peeked h₁
  have hfuel : (c :: rest).length < l₁.remaining + 1 := by
    rw [hread₁.remaining_eq]
    exact Nat.lt_succ_self _
  have hloop := consumeNumberLoop_spec l₁.peekLoc l₁.peekLoc 0 false hfuel hread₁
  have hsplit := numeralPrefix_append_numeralRest false (c :: rest)
  have hcons : numeralPrefix false (c :: rest) = c :: numeralPrefix false rest := by
    rw [numeralPrefix, if_pos hc]
  -- the loop stops where the numeral ends: read alone it is the same numeral
  have hpre : numeralPrefix false
      (c :: numeralPrefix false rest ++ numeralRest false (c :: rest)) =
        c :: numeralPrefix false rest := by
    rw [← hcons, hsplit]
  unfold consumeNumber
  simp only [hpeek]
  generalize consumeNumberLoop l₁.peekLoc (l₁.remaining + 1) l₁.peekLoc 0 false l₁ = q at hloop
  cases hloop with
  | continued h' hends =>
      refine ⟨_, _, numeralPrefix false (c :: rest), numeralRest false (c :: rest), rfl,
        hsplit.symm, ?_, fun _ _ _ hnext => absurd hnext hends, h'⟩
      rw [hcons, h₁.peekLoc]
      exact .badNumber hc hpre
  | counted h' hends =>
      -- the token is that of the text at the start of the number, with the length that was counted
      have htoken : numberToken ⟨l₁.peekLoc, lastLocation pre (numeralPrefix false (c :: rest))
            l₁.peekLoc⟩ (l.text 1) (0 + (numeralPrefix false (c :: rest)).length)
            (false || decide ('.' ∈ numeralPrefix false (c :: rest))) =
          numberToken ⟨locationAfter pre, locationAfter (pre ++
            (numeralPrefix false (c :: rest)).dropLast)⟩ (numeralPrefix false (c :: rest) ++
              numeralRest false (c :: rest)) (numeralPrefix false (c :: rest)).length
            (decide ('.' ∈ numeralPrefix false (c :: rest))) := by
        rw [hsplit, h.text_one, h₁.peekLoc, Nat.zero_add, Bool.false_or]
        simp [lastLocation, hcons]
      refine ⟨_, _, numeralPrefix false (c :: rest), numeralRest false (c :: rest), rfl,
        hsplit.symm, ?_, fun _ _ _ _ => htoken, h'⟩
      rw [htoken, hcons]
      exact Item.number hc hpre hends

/-- A word is read up to the first character that is none of an identifier. -/
theorem consumeIdentifier_spec {l : CharStream} {pre rest : List Char} {c : Char}
    (h : Peeked l pre c rest) (hnum : numericChar c = false) (hc : identifierChar c = true) :
    ∃ r l' used rest', consumeIdentifier l = (r, l') ∧ c :: rest = used ++ rest' ∧
      Item pre used rest' r ∧ Reading l' (pre ++ used) rest' := by
  have hread := Reading.peeked h
  obtain ⟨l₁, hpeek, h₁⟩ := hread.lexerPeekChar_cons
  have hread₁ := Reading.peeked h₁
  have hfuel : (c :: rest).length < l₁.remaining + 1 := by
    rw [hread₁.remaining_eq]
    exact Nat.lt_succ_self _
  obtain ⟨l', hloop, h'⟩ := consumeIdentifierLoop_spec l₁.peekLoc 0 hfuel hread₁
  have hsplit := List.takeWhile_append_dropWhile (p := identifierChar) (l := c :: rest)
  have hcons : (c :: rest).takeWhile identifierChar = c :: rest.takeWhile identifierChar :=
    List.takeWhile_cons_of_pos hc
  unfold consumeIdentifier
  simp only [hpeek, hloop]
  refine ⟨_, l', (c :: rest).takeWhile identifierChar, (c :: rest).dropWhile identifierChar, rfl,
    hsplit.symm, ?_, h'⟩
  -- the word ends where its characters do
  have hhead : ∀ d ∈ ((c :: rest).dropWhile identifierChar).head?, identifierChar d = false := by
    intro d hd
    have := List.head?_dropWhile_not identifierChar (c :: rest)
    rw [Option.mem_def.mp hd] at this
    simpa using this
  have hall : ∀ d ∈ (c :: rest).takeWhile identifierChar, identifierChar d = true :=
    fun d hd => List.mem_takeWhile_imp hd
  rw [hcons] at hall
  have hitem : Item pre (c :: rest.takeWhile identifierChar)
      ((c :: rest).dropWhile identifierChar) _ := Item.word hnum hall hhead
  rw [← hcons, hsplit] at hitem
  rw [h.text_one, h₁.peekLoc, Nat.zero_add]
  simpa [lastLocation, hcons] using hitem

/-- The character is read with the `=` behind it, or without one if there is none. -/
theorem consumeDoubleCharToken_spec {l : CharStream} {pre rest : List Char} {c : Char}
    {d : TokenType} {o : Option TokenType} (h : Peeked l pre c rest)
    (hc : doubleCharType c = some (d, o)) :
    ∃ r l' used rest', consumeDoubleCharToken l d o (locationAfter pre) = (r, l') ∧
      c :: rest = used ++ rest' ∧ Item pre used rest' r ∧ Reading l' (pre ++ used) rest' := by
  have hread := Reading.fresh h.consumeChar
  -- without `=` the item is the character alone
  have halone : ∀ {q : LexResult},
      (∀ t, o = some t → q = .ok (Token.single t (locationAfter pre))) →
      (o = none → q = .error ⟨some .illegalCharacter, none⟩) → rest.head? ≠ some '=' →
      Item pre [c] rest q := by
    intro q hsome hnone hhead
    cases ho : o with
    | some t =>
        rw [hsome t ho]
        exact .half (ho ▸ hc) hhead
    | none =>
        rw [hnone ho]
        exact .bang (ho ▸ hc) hhead
  unfold consumeDoubleCharToken
  cases rest with
  | nil =>
      obtain ⟨l', hpeek, h'⟩ := hread.lexerPeekChar_nil
      simp only [hpeek]
      exact ⟨_, l', [c], [], rfl, rfl, halone (by rintro t rfl; rfl) (by rintro rfl; rfl) (by simp),
        .ended h'⟩
  | cons e rest =>
      obtain ⟨l', hpeek, h'⟩ := hread.lexerPeekChar_cons
      have heq : readChar e = '=' ↔ e = '=' := readChar_eq_iff (by decide) (by decide)
      simp only [hpeek, heq]
      by_cases he : e = '='
      · subst he
        rw [if_pos rfl]
        exact ⟨_, _, [c, '='], rest, rfl, rfl, .double hc,
          by simpa using Reading.fresh h'.consumeChar⟩
      · rw [if_neg he]
        exact ⟨_, l', [c], e :: rest, rfl, rfl,
          halone (by rintro t rfl; rfl) (by rintro rfl; rfl) (by simpa using he),
          by simpa using Reading.peeked h'⟩

/-! ### A call of the lexer -/

/-- What a call does: it skips and reads one item, or it comes to the end. -/
def CallResult (pre rest : List Char) (r : LexResult) (l' : CharStream) : Prop :=
  (Skips rest [] ∧ r = .ok Token.eof ∧ Ended l' (pre ++ rest)) ∨
    ∃ s used rest', rest = s ++ used ++ rest' ∧ Skips s (used ++ rest') ∧
      Item (pre ++ s) used rest' r ∧ Reading l' (pre ++ s ++ used) rest'

/-- What a call does, with what it makes of a numeral. -/
def CallReads (pre rest : List Char) (r : LexResult) (l' : CharStream) : Prop :=
  (Skips rest [] ∧ r = .ok Token.eof ∧ Ended l' (pre ++ rest)) ∨
    ∃ s used rest', rest = s ++ used ++ rest' ∧ Skips s (used ++ rest') ∧
      Item (pre ++ s) used rest' r ∧ NumberOf (pre ++ s) used rest' r ∧
        Reading l' (pre ++ s ++ used) rest'

/-- What a call does, without the token of the numeral. -/
theorem CallReads.result {pre rest : List Char} {r : LexResult} {l' : CharStream}
    (h : CallReads pre rest r l') : CallResult pre rest r l' := by
  rcases h with hend | ⟨s, used, rest', hsplit, hskip, hitem, -, hread⟩
  · exact Or.inl hend
  · exact Or.inr ⟨s, used, rest', hsplit, hskip, hitem, hread⟩

/-- Skipping something before a call. -/
theorem CallReads.skip {pre s rest : List Char} {r : LexResult} {l' : CharStream}
    (h : CallReads (pre ++ s) rest r l') (hs : Skips s rest) :
    CallReads pre (s ++ rest) r l' := by
  rcases h with ⟨hskip, hr, hend⟩ | ⟨t, used, rest', rfl, hskip, hitem, hnumber, hread⟩
  · exact Or.inl ⟨Skips.append (by simpa using hs) hskip, hr, by simpa using hend⟩
  · rw [List.append_assoc] at hitem hnumber hread
    refine Or.inr ⟨s ++ t, used, rest', by simp, Skips.append (by simpa using hs) hskip,
      hitem, hnumber, by simpa using hread⟩

/-- An item that starts here. -/
theorem CallReads.now {pre used rest : List Char} {r : LexResult} {l' : CharStream}
    (hitem : Item pre used rest r) (hnumber : NumberOf pre used rest r)
    (hread : Reading l' (pre ++ used) rest) : CallReads pre (used ++ rest) r l' := by
  rw [← List.append_nil pre] at hitem hnumber hread
  exact Or.inr ⟨[], used, rest, rfl, .nil, hitem, hnumber, hread⟩

/-- What begins with another character is no numeral. -/
theorem numberOf_other {pre used rest cs : List Char} {c : Char} {r : LexResult}
    (hnum : numericChar c = false) (hsplit : c :: cs = used ++ rest) :
    NumberOf pre used rest r := by
  intro d hd hdigit
  cases used with
  | nil => cases hd
  | cons e used =>
      obtain rfl : e = d := by simpa using hd
      rw [← (List.cons.inj hsplit).1, hnum] at hdigit
      cases hdigit

/-- What a turn of the loop on the source `cs` comes to: the result of the call, or the next turn
behind something that is skipped. -/
inductive Turn (fuel : Nat) (pre cs : List Char) (q : LexResult × CharStream) : Prop where
  | result {r : LexResult} {l' : CharStream} (hq : q = (r, l')) (hcall : CallReads pre cs r l')
  | again {s rest : List Char} {l' : CharStream} (hq : q = lexerParseTokenLoop fuel l')
      (hsplit : cs = s ++ rest) (hne : s ≠ []) (hskip : Skips s rest)
      (hread : Reading l' (pre ++ s) rest)

section
variable {fuel : Nat} {l l' : CharStream} {pre rest : List Char} {c : Char}

/-- A turn that reads an item, and no numeral. -/
theorem Turn.other {q : LexResult × CharStream} (hnum : numericChar c = false)
    (h : ∃ r l'' used rest', q = (r, l'') ∧ c :: rest = used ++ rest' ∧
      Item pre used rest' r ∧ Reading l'' (pre ++ used) rest') : Turn fuel pre (c :: rest) q := by
  obtain ⟨r, l'', used, rest', hq, hsplit, hitem, hread⟩ := h
  refine .result hq ?_
  rw [hsplit]
  exact .now hitem (numberOf_other hnum hsplit) hread

/-- At the end of the source the call gives the end. -/
theorem turn_nil (h : Reading l pre []) : Turn fuel pre [] (lexerParseTokenLoop (fuel + 1) l) := by
  obtain ⟨l', hpeek, h'⟩ := h.lexerPeekChar_nil
  simp only [lexerParseTokenLoop, hpeek]
  exact .result rfl (Or.inl ⟨.nil, rfl, by simpa using h'⟩)

/-- A space is skipped with all that follow it. -/
theorem turn_space (hpeek : lexerPeekChar l = (some (readChar c, locationAfter pre), l'))
    (h : Peeked l' pre c rest) (hspace : readChar c = ' ') :
    Turn fuel pre (c :: rest) (lexerParseTokenLoop (fuel + 1) l) := by
  have hc : isSpace c = true := by simp [isSpace, hspace]
  simp only [lexerParseTokenLoop, hpeek]
  rw [hspace]
  exact .again rfl (List.takeWhile_append_dropWhile (p := isSpace) (l := c :: rest)).symm
    (by simp [hc]) (Skips.of_spaces fun d hd => List.mem_takeWhile_imp hd)
    (consumeSpaces_spec (Reading.peeked h))

/-- Behind `--` a comment is skipped, and another `-` is a token. -/
theorem turn_dash (hpeek : lexerPeekChar l = (some ('-', locationAfter pre), l'))
    (h : Peeked l' pre '-' rest) :
    Turn fuel pre ('-' :: rest) (lexerParseTokenLoop (fuel + 1) l) := by
  have hfresh := Reading.fresh h.consumeChar
  have hsingle : singleCharType '-' = none := by decide
  have hdouble : doubleCharType '-' = none := by decide
  simp only [lexerParseTokenLoop, hpeek, hsingle, hdouble, if_true]
  cases rest with
  | nil =>
      obtain ⟨l'', hpeek', h'⟩ := hfresh.lexerPeekChar_nil
      simp only [hpeek']
      exact .other rfl ⟨_, l'', ['-'], [], rfl, rfl, .sub (by simp), .ended h'⟩
  | cons e rest =>
      obtain ⟨l'', hpeek', h'⟩ := hfresh.lexerPeekChar_cons
      have heq : readChar e = '-' ↔ e = '-' := readChar_eq_iff (by decide) (by decide)
      simp only [hpeek', heq]
      -- two dashes begin a comment, which is skipped, and one dash is an operator
      by_cases he : e = '-'
      · subst he
        rw [if_pos rfl]
        obtain ⟨used, rest', happ, hread, hcase⟩ := consumeComment_spec h'.consumeChar
        rcases hcase with ⟨rfl, rfl, hmem⟩ | ⟨body, hbody, rfl⟩
        · refine .again (s := '-' :: '-' :: used) rfl (by simp) (by simp) (.lastComment hmem) ?_
          simpa using hread
        · have hsplit : '-' :: '-' :: rest = ('-' :: '-' :: (body ++ ['\n'])) ++ rest' := by
            simp [← happ]
          exact .again rfl hsplit (by simp) (.comment hbody .nil) (by simpa using hread)
      · rw [if_neg he]
        exact .other rfl
          ⟨_, l'', ['-'], e :: rest, rfl, rfl, .sub (by simpa using he), .peeked h'⟩

/-- A character that is a token by itself. -/
theorem turn_single {t : TokenType}
    (hpeek : lexerPeekChar l = (some (c, locationAfter pre), l')) (h : Peeked l' pre c rest)
    (hsingle : singleCharType c = some t) :
    Turn fuel pre (c :: rest) (lexerParseTokenLoop (fuel + 1) l) := by
  simp only [lexerParseTokenLoop, hpeek, hsingle]
  exact .other (numericChar_of_identifierChar (identifierChar_single hsingle))
    ⟨_, _, [c], rest, rfl, rfl, .single hsingle, .fresh h.consumeChar⟩

/-- A character that `=` may follow. -/
theorem turn_double {d : TokenType × Option TokenType}
    (hpeek : lexerPeekChar l = (some (c, locationAfter pre), l')) (h : Peeked l' pre c rest)
    (hsingle : singleCharType c = none) (hdouble : doubleCharType c = some d) :
    Turn fuel pre (c :: rest) (lexerParseTokenLoop (fuel + 1) l) := by
  simp only [lexerParseTokenLoop, hpeek, hsingle, hdouble]
  exact .other (numericChar_of_identifierChar (identifierChar_double hdouble))
    (consumeDoubleCharToken_spec h hdouble)

/-- The characters that are no token and no beginning of one by themselves: a string, a numeral or
a word begins, or the character is skipped. -/
theorem turn_rest (hpeek : lexerPeekChar l = (some (c, locationAfter pre), l'))
    (h : Peeked l' pre c rest) (hread : readChar c = c) (hsingle : singleCharType c = none)
    (hdouble : doubleCharType c = none) (hdash : c ≠ '-') (hspace : c ≠ ' ') :
    Turn fuel pre (c :: rest) (lexerParseTokenLoop (fuel + 1) l) := by
  simp only [lexerParseTokenLoop, hpeek, hsingle, hdouble, if_neg hdash, if_neg hspace]
  by_cases hquote : c = '\''
  · subst hquote
    exact .other rfl (consumeString_spec h)
  rw [if_neg hquote]
  cases hnum : numericChar c with
  | true =>
      obtain ⟨r, l'', used, rest', hq, hsplit, hitem, hnumber, hread'⟩ := consumeNumber_spec h hnum
      refine .result hq ?_
      rw [hsplit]
      exact .now hitem hnumber hread'
  | false =>
      cases hident : identifierChar c with
      | true => exact .other hnum (consumeIdentifier_spec h hnum hident)
      | false =>
          -- the default branch drops a character that starts nothing
          refine .again (s := [c]) rfl rfl (by simp) (.nothing ⟨hsingle, hdouble, hdash, hquote, ?_,
            hident⟩ .nil) (.fresh h.consumeChar)
          simp [isSpace, hread, hspace]

end

/-- A turn of the loop, by the character ahead. -/
theorem lexerParseTokenLoop_turn {fuel : Nat} {l : CharStream} {pre cs : List Char}
    (h : Reading l pre cs) : Turn fuel pre cs (lexerParseTokenLoop (fuel + 1) l) := by
  cases cs with
  | nil => exact turn_nil h
  | cons c rest =>
      obtain ⟨l', hpeek, h'⟩ := h.lexerPeekChar_cons
      by_cases hspace : readChar c = ' '
      · exact turn_space hpeek h' hspace
      -- only the spaces are read as another character than they are
      have hread : readChar c = c := by
        unfold readChar at hspace ⊢
        split
        · rename_i hn
          exact absurd (if_pos hn) hspace
        · rfl
      rw [hread] at hpeek hspace
      cases hsingle : singleCharType c with
      | some t => exact turn_single hpeek h' hsingle
      | none =>
          cases hdouble : doubleCharType c with
          | some d => exact turn_double hpeek h' hsingle hdouble
          | none =>
              by_cases hdash : c = '-'
              · subst hdash
                exact turn_dash hpeek h'
              · exact turn_rest hpeek h' hread hsingle hdouble hdash hspace

/-- The loop comes to a result when the fuel is more than what is left. The induction is on the
fuel. -/
theorem lexerParseTokenLoop_reads : ∀ (fuel : Nat) {l : CharStream} {pre rest : List Char},
    rest.length < fuel → Reading l pre rest →
    ∃ r l', lexerParseTokenLoop fuel l = (r, l') ∧ CallReads pre rest r l' := by
  intro fuel
  induction fuel with
  | zero => intro l pre rest hfuel; omega
  | succ fuel ih =>
      intro l pre rest hfuel h
      have hturn : Turn fuel pre rest _ := lexerParseTokenLoop_turn h
      cases hturn with
      | result hq hcall => exact ⟨_, _, hq, hcall⟩
      | again hq hsplit hne hskip hread =>
          -- what is skipped is not empty, so the fuel is enough for what is left
          subst hsplit
          have hpos := List.length_pos_iff.mpr hne
          rw [List.length_append] at hfuel
          obtain ⟨r, l₃, hrun, hcall⟩ := ih (by omega) hread
          exact ⟨r, l₃, hq.trans hrun, hcall.skip hskip⟩

/-- A call has enough fuel for its loop. -/
theorem lexerParseToken_reads {l : CharStream} {pre rest : List Char} (h : Reading l pre rest) :
    ∃ r l', lexerParseToken l = (r, l') ∧ CallReads pre rest r l' :=
  lexerParseTokenLoop_reads _ (by rw [h.remaining_eq]; exact Nat.lt_succ_self _) h

/-- A call of the lexer follows the lexical grammar. -/
theorem lexerParseToken_spec {l : CharStream} {pre rest : List Char} (h : Reading l pre rest) :
    ∃ r l', lexerParseToken l = (r, l') ∧ CallResult pre rest r l' := by
  obtain ⟨r, l', hcall, hreads⟩ := lexerParseToken_reads h
  exact ⟨r, l', hcall, hreads.result⟩

/-! ### Tokens before the end -/

/-- The test that the lexer makes for a keyword. -/
def keywordTest (s : List Char) (n : Nat) (w : String) : Bool :=
  if w = "and" then matchToken w.toList s n else matchToken s w.toList n

/-- The test of the keywords is a search in the table, with the tests that the code makes. -/
theorem keywordType_eq (s : List Char) (n : Nat) :
    keywordType s n = firstMatch (keywordTest s n) keywords := rfl

/-- The test of the literal words is a search in the table. -/
theorem literalWord_eq (s : List Char) (n : Nat) :
    literalWord s n = firstMatch (fun w => matchToken s w.toList n) literalWords := rfl

/-- The test of the primitives is a search in the table. -/
theorem primitiveWord_eq (s : List Char) (n : Nat) :
    primitiveWord s n = firstMatch (fun w => matchToken s w.toList n) primitiveNames := rfl

/-- No keyword is the end or a primitive. -/
theorem keywordType_ne {s : List Char} {n : Nat} {t : TokenType} (h : keywordType s n = some t) :
    t ≠ .tokenEof ∧ t ≠ .tokenPrimitive := by
  have htable : ∀ e ∈ keywords, e.2 ≠ .tokenEof ∧ e.2 ≠ .tokenPrimitive := by decide
  rw [keywordType_eq] at h
  obtain ⟨w, hmem, -⟩ := firstMatch_mem h
  exact htable _ hmem

/-- The names of primitives do not name an entity. -/
theorem primitiveWord_ne {s : List Char} {n : Nat} {p : Primitive}
    (h : primitiveWord s n = some p) : p ≠ .unknown ∧ p ≠ .entity := by
  have htable : ∀ e ∈ primitiveNames, e.2 ≠ .unknown ∧ e.2 ≠ .entity := by decide
  rw [primitiveWord_eq] at h
  obtain ⟨w, hmem, -⟩ := firstMatch_mem h
  exact htable _ hmem

/-- The token of a word has a value of its type. -/
theorem wordToken_valid (s : List Char) (n : Nat) (span : Span) :
    Token.Valid ⟨(wordToken s n).1, span, (wordToken s n).2⟩ := by
  unfold wordToken
  split
  · rename_i t ht
    obtain ⟨heof, hprim⟩ := keywordType_ne ht
    exact ⟨heof, fun h => absurd h hprim⟩
  · split
    · exact ⟨TokenType.noConfusion, TokenType.noConfusion⟩
    · split
      · rename_i p hp
        exact ⟨TokenType.noConfusion, fun _ => primitiveWord_ne hp⟩
      · exact ⟨TokenType.noConfusion, TokenType.noConfusion⟩

/-- The token of a numeral has a value of its type. -/
theorem numberToken_valid {span : Span} {s : List Char} {n : Nat} {hasDot : Bool} {t : Token}
    (h : numberToken span s n hasDot = .ok t) : t.Valid := by
  obtain ⟨l, rfl, -⟩ := numberToken_ok h
  exact ⟨TokenType.noConfusion, TokenType.noConfusion⟩

/-- The token of an item is no end, and its primitive has a name. -/
theorem valid_of_item {pre used rest : List Char} {t : Token} (h : Item pre used rest (.ok t)) :
    t.Valid := by
  have hsimple : ∀ {type : TokenType} {span : Span} {value : TokenValue},
      type ∉ specialTypes → Token.Valid ⟨type, span, value⟩ := by
    intro type span value h
    simp only [specialTypes, List.mem_cons, not_or] at h
    exact ⟨h.1, fun hp => absurd hp h.2.1⟩
  -- the types that need more than a span are those of words, numerals and the end of file
  generalize hr : (Except.ok t : LexResult) = r at h
  cases h with
  | single hc => cases hr; exact hsimple (singleCharType_notMem hc)
  | double hc => cases hr; exact hsimple (doubleCharType_notMem hc).1
  | half hc _ => cases hr; exact hsimple ((doubleCharType_notMem hc).2 _ rfl)
  | bang => cases hr
  | sub => cases hr; exact hsimple (by decide)
  | string => cases hr; exact hsimple (by decide)
  | openString => cases hr
  | number => exact numberToken_valid hr.symm
  | badNumber => cases hr
  | word => cases hr; exact wordToken_valid _ _ _

/-! ### The results of a source -/

/-- The results that the stream `l` still gives. -/
def streamResults (l : CharStream) : List LexResult := lexResults (l.remaining + 1) ⟨l, []⟩

/-- Enough fuel gives all results. -/
theorem lexResults_eq : ∀ {fuel fuel' : Nat} {l : CharStream} {pre rest : List Char},
    rest.length < fuel → rest.length < fuel' → Reading l pre rest →
    lexResults fuel ⟨l, []⟩ = lexResults fuel' ⟨l, []⟩ := by
  intro fuel
  induction fuel with
  | zero => intro fuel' l pre rest hfuel; omega
  | succ fuel ih =>
      intro fuel' l pre rest hfuel hfuel' h
      obtain ⟨fuel', rfl⟩ : ∃ m, fuel' = m + 1 := ⟨fuel' - 1, by omega⟩
      obtain ⟨r, l', hcall, hres⟩ := lexerParseToken_spec h
      simp only [lexResults, lexerNext, hcall]
      rcases hres with ⟨-, rfl, -⟩ | ⟨s, used, rest', rfl, -, hitem, hread⟩
      · rfl
      · -- an item has characters, so less remains for either bound
        have hpos := List.length_pos_iff.mpr hitem.used_ne_nil
        simp only [List.length_append] at hfuel hfuel'
        have hih : lexResults fuel ⟨l', []⟩ = lexResults fuel' ⟨l', []⟩ :=
          ih (by omega) (by omega) hread
        cases r with
        | error e => simp only [hih]
        | ok t => simp only [hih]

/-- At the end there are no results. -/
theorem streamResults_end {l l' : CharStream} (h : lexerParseToken l = (.ok Token.eof, l')) :
    streamResults l = [] := by
  unfold streamResults
  simp only [lexResults, lexerNext, h]
  rfl

/-- The results are that of the next call and those behind it. -/
theorem streamResults_item {l l' : CharStream} {pre rest : List Char} {s used rest' : List Char}
    {r : LexResult} (h : Reading l pre rest) (hcall : lexerParseToken l = (r, l'))
    (hsplit : rest = s ++ used ++ rest') (hitem : Item (pre ++ s) used rest' r)
    (hread : Reading l' (pre ++ s ++ used) rest') :
    streamResults l = r :: streamResults l' := by
  have hpos := List.length_pos_iff.mpr hitem.used_ne_nil
  have hlen : rest'.length < l.remaining := by
    rw [h.remaining_eq, hsplit]
    simp only [List.length_append]
    omega
  have hrest : lexResults l.remaining ⟨l', []⟩ = streamResults l' :=
    lexResults_eq hlen (by rw [hread.remaining_eq]; exact Nat.lt_succ_self _) hread
  rw [← hrest, streamResults]
  simp only [lexResults, lexerNext, hcall]
  cases r with
  | error e => rfl
  | ok t => exact if_neg (valid_of_item hitem).1

/-- The end of the source stays the end. -/
theorem Ended.lexerParseToken {l : CharStream} {pre : List Char} (h : Ended l pre) :
    lexerParseToken l = (.ok Token.eof, l) := by
  unfold Nucleus.Lang.lexerParseToken
  rw [lexerParseTokenLoop, h.lexerPeekChar]

/-! ### The lexer as a token source -/

/-- The results that a lexer still gives. Its queue holds at most the token that a peek at
depth 0 puts there. -/
inductive LexerReads : Lexer → List LexResult → Prop where
  | empty {s : CharStream} {pre rest : List Char} :
      Reading s pre rest → LexerReads ⟨s, []⟩ (streamResults s)
  | queued {s : CharStream} {pre rest : List Char} {t : Token} :
      Reading s pre rest → t.Valid → LexerReads ⟨s, [t]⟩ (.ok t :: streamResults s)
  | ended {s : CharStream} {pre : List Char} : Ended s pre → LexerReads ⟨s, [Token.eof]⟩ []

/-- A call of the lexer with an empty queue, in terms of the results to come. -/
theorem lexerParseToken_results {s : CharStream} {pre rest : List Char} (h : Reading s pre rest) :
    (streamResults s = [] ∧ ∃ s' pre', lexerParseToken s = (.ok Token.eof, s') ∧ Ended s' pre') ∨
      ∃ r s' pre' rest', lexerParseToken s = (r, s') ∧ Reading s' pre' rest' ∧
        streamResults s = r :: streamResults s' ∧ ∀ t, r = .ok t → t.Valid := by
  obtain ⟨r, s', hcall, hres⟩ := lexerParseToken_spec h
  rcases hres with ⟨-, rfl, hend⟩ | ⟨t, used, rest', hsplit, -, hitem, hread⟩
  · exact Or.inl ⟨streamResults_end hcall, s', _, hcall, hend⟩
  · refine Or.inr ⟨r, s', _, _, hcall, hread, streamResults_item h hcall hsplit hitem hread, ?_⟩
    rintro t rfl
    exact valid_of_item hitem

/-- Behind the end there are no results. -/
theorem Ended.streamResults {s : CharStream} {pre : List Char} (h : Ended s pre) :
    streamResults s = [] :=
  streamResults_end h.lexerParseToken

/-- The results to come are valid tokens or errors. -/
theorem lexResults_valid : ∀ {fuel : Nat} {s : CharStream} {pre rest : List Char} {t : Token},
    Reading s pre rest → .ok t ∈ lexResults fuel ⟨s, []⟩ → t.Valid := by
  intro fuel
  induction fuel with
  | zero => intro s pre rest t _ hmem; simp [lexResults] at hmem
  | succ fuel ih =>
      intro s pre rest t h hmem
      rcases lexerParseToken_results h with
        ⟨-, s', pre', hcall, -⟩ | ⟨r, s', pre', rest', hcall, hread, -, hvalid⟩
      · simp only [lexResults, lexerNext, hcall] at hmem
        simp [Token.eof] at hmem
      · simp only [lexResults, lexerNext, hcall] at hmem
        cases r with
        | error e =>
            rcases List.mem_cons.mp hmem with heq | hmem
            · cases heq
            · exact ih hread hmem
        | ok u =>
            -- no token of an item is the end of file
            simp only [if_neg (hvalid u rfl).1, List.mem_cons] at hmem
            rcases hmem with heq | hmem
            · cases heq
              exact hvalid t rfl
            · exact ih hread hmem

/-- A call with an empty queue. -/
theorem lexerNext_empty {s s' : CharStream} {r : LexResult} (h : lexerParseToken s = (r, s')) :
    lexerNext ⟨s, []⟩ = (r, ⟨s', []⟩) := by
  simp only [lexerNext, h]

/-- A peek at depth 0 with an empty queue stores a token. -/
theorem lexerPeek_empty_ok {s s' : CharStream} {t : Token} (h : lexerParseToken s = (.ok t, s')) :
    lexerPeek ⟨s, []⟩ 0 = (.ok t, ⟨s', [t]⟩) := by
  show lexerPeekLoop 0 1 ⟨s, []⟩ = _
  simp only [lexerPeekLoop, h]
  rfl

/-- A peek at depth 0 with an empty queue consumes an error. -/
theorem lexerPeek_empty_error {s s' : CharStream} {e : LexError}
    (h : lexerParseToken s = (.error e, s')) :
    lexerPeek ⟨s, []⟩ 0 = (.error e, ⟨s', []⟩) := by
  show lexerPeekLoop 0 1 ⟨s, []⟩ = _
  simp only [lexerPeekLoop, h]

/-- Without results the next token is the end. -/
theorem LexerReads.next_nil {l : Lexer} (h : LexerReads l []) :
    (lexerNext l).1 = .ok Token.eof ∧ LexerReads (lexerNext l).2 [] := by
  generalize hr : ([] : List LexResult) = rs at h
  cases h with
  | empty h =>
      rcases lexerParseToken_results h with ⟨-, s', pre', hcall, hend⟩ |
        ⟨r, s', _, _, _, _, hres, _⟩
      · rw [lexerNext_empty hcall]
        exact ⟨rfl, by rw [← hr, ← hend.streamResults]; exact .empty (.ended hend)⟩
      · rw [hres] at hr
        cases hr
  | queued => cases hr
  | ended h => exact ⟨rfl, by rw [← h.streamResults]; exact .empty (.ended h)⟩

/-- The next call gives the first result. -/
theorem LexerReads.next_cons {l : Lexer} {r : LexResult} {rs : List LexResult}
    (h : LexerReads l (r :: rs)) : (lexerNext l).1 = r ∧ LexerReads (lexerNext l).2 rs := by
  generalize hr : r :: rs = rs' at h
  cases h with
  | empty h =>
      rcases lexerParseToken_results h with ⟨hnil, _⟩ | ⟨r', s', _, _, hcall, hread, hres, _⟩
      · rw [hnil] at hr
        cases hr
      · rw [hres] at hr
        cases hr
        rw [lexerNext_empty hcall]
        exact ⟨rfl, .empty hread⟩
  | queued h _ =>
      cases hr
      exact ⟨rfl, .empty h⟩
  | ended => cases hr

/-- Without results the end is peeked at. -/
theorem LexerReads.peek_nil {l : Lexer} (h : LexerReads l []) :
    (lexerPeek l 0).1 = .ok Token.eof ∧ LexerReads (lexerPeek l 0).2 [] := by
  generalize hr : ([] : List LexResult) = rs at h
  cases h with
  | empty h =>
      rcases lexerParseToken_results h with ⟨-, s', pre', hcall, hend⟩ |
        ⟨r, s', _, _, _, _, hres, _⟩
      · rw [lexerPeek_empty_ok hcall, ← hr]
        exact ⟨rfl, .ended hend⟩
      · rw [hres] at hr
        cases hr
  | queued => cases hr
  | ended h => exact ⟨rfl, .ended h⟩

/-- A peek gives the first token and keeps it. -/
theorem LexerReads.peek_ok {l : Lexer} {t : Token} {rs : List LexResult}
    (h : LexerReads l (.ok t :: rs)) :
    (lexerPeek l 0).1 = .ok t ∧ LexerReads (lexerPeek l 0).2 (.ok t :: rs) := by
  generalize hr : .ok t :: rs = rs' at h
  cases h with
  | empty h =>
      rcases lexerParseToken_results h with ⟨hnil, _⟩ | ⟨r', s', _, _, hcall, hread, hres, hvalid⟩
      · rw [hnil] at hr
        cases hr
      · rw [hres] at hr ⊢
        cases hr
        rw [lexerPeek_empty_ok hcall]
        exact ⟨rfl, .queued hread (hvalid t rfl)⟩
  | queued h hvalid =>
      cases hr
      exact ⟨rfl, .queued h hvalid⟩
  | ended => cases hr

/-- A peek at an error consumes it. -/
theorem LexerReads.peek_error {l : Lexer} {e : LexError} {rs : List LexResult}
    (h : LexerReads l (.error e :: rs)) :
    (lexerPeek l 0).1 = .error e ∧ LexerReads (lexerPeek l 0).2 rs := by
  generalize hr : .error e :: rs = rs' at h
  cases h with
  | empty h =>
      rcases lexerParseToken_results h with ⟨hnil, _⟩ | ⟨r', s', _, _, hcall, hread, hres, _⟩
      · rw [hnil] at hr
        cases hr
      · rw [hres] at hr
        cases hr
        rw [lexerPeek_empty_error hcall]
        exact ⟨rfl, .empty hread⟩
  | queued => cases hr
  | ended => cases hr

/-- The tokens that are read are valid. -/
theorem LexerReads.valid {l : Lexer} {rs : List LexResult} {t : Token} (h : LexerReads l rs)
    (hmem : .ok t ∈ rs) : t.Valid := by
  cases h with
  | empty h => exact lexResults_valid h hmem
  | queued h hvalid =>
      rcases List.mem_cons.mp hmem with heq | hmem
      · cases heq
        exact hvalid
      · exact lexResults_valid h hmem
  | ended => simp at hmem

/-- The lexer reads the results of its source. -/
instance : LawfulTokenSource Lexer where
  Reads := LexerReads
  next_nil := LexerReads.next_nil
  next_cons := LexerReads.next_cons
  peek_nil := LexerReads.peek_nil
  peek_ok := LexerReads.peek_ok
  peek_error := LexerReads.peek_error
  valid := LexerReads.valid

/-- The lexer of a source starts with all its results to come. -/
theorem reads_lexerInit (source : Source) :
    LawfulTokenSource.Reads (lexerInit source) (resultsOf source) := by
  have h := reading_streamInit source
  have heq : resultsOf source = streamResults (streamInit source) :=
    lexResults_eq (Nat.lt_succ_self _) (by rw [h.remaining_eq]; exact Nat.lt_succ_self _) h
  rw [heq]
  exact LexerReads.empty h

end Nucleus.Proofs
