import Mathlib.Data.List.TakeWhile
import Nucleus.Spec.Lexical

/-!
# `Nucleus.Proofs.Chars`: reading characters

`Reading l pre rest`: the stream `l` has consumed the characters `pre` of its source, and
`rest` is still to come. A stream is in one of three shapes then: nothing in the peek buffer
(`Fresh`), the first character of `rest` in it (`Peeked`), or the end has been seen
(`Ended`). Each operation has one lemma, and each loop of the lexer that skips or collects
characters is a `takeWhile` of what is to come.
-/

set_option autoImplicit false

namespace Nucleus.Proofs

open Nucleus.Vm
open Nucleus.Lang
open Nucleus.Spec

/-- Nothing is in the peek buffer. -/
structure Fresh (l : CharStream) (pre rest : List Char) : Prop where
  text : l.source.val = pre ++ rest
  hasPeek : l.hasPeek = false
  ptr : l.ptr = some pre.length
  nextLoc : l.nextLoc = locationAfter pre

/-- The character `c` is in the peek buffer. -/
structure Peeked (l : CharStream) (pre : List Char) (c : Char) (rest : List Char) : Prop where
  text : l.source.val = pre ++ c :: rest
  hasPeek : l.hasPeek = true
  ptr : l.ptr = some (pre.length + 1)
  nextLoc : l.nextLoc = locationAfter (pre ++ [c])
  peekChar : l.peekChar = readChar c
  peekLoc : l.peekLoc = locationAfter pre

/-- The end of the source has been seen. -/
structure Ended (l : CharStream) (pre : List Char) : Prop where
  text : l.source.val = pre
  hasPeek : l.hasPeek = false
  ptr : l.ptr = none

/-- The stream has consumed `pre`, and `rest` is still to come. -/
inductive Reading (l : CharStream) (pre : List Char) : List Char → Prop where
  | fresh {rest : List Char} : Fresh l pre rest → Reading l pre rest
  | peeked {c : Char} {rest : List Char} : Peeked l pre c rest → Reading l pre (c :: rest)
  | ended : Ended l pre → Reading l pre []

/-- What has been read and what is left is the source. -/
theorem Reading.text {l : CharStream} {pre rest : List Char} (h : Reading l pre rest) :
    l.source.val = pre ++ rest := by
  cases h with
  | fresh h => exact h.text
  | peeked h => exact h.text
  | ended h => simpa using h.text

/-- The lexer starts with the whole source to come. -/
theorem reading_streamInit (source : Source) : Reading (streamInit source) [] source.val :=
  .fresh ⟨rfl, rfl, rfl, rfl⟩

/-! ### Single characters -/

/-- The character behind what has been read. -/
theorem charAt_append (pre : List Char) (c : Char) (rest : List Char) :
    charAt (pre ++ c :: rest) pre.length = c := by
  simp [charAt]

/-- Behind the last character stands the end of the string. -/
theorem charAt_length (s : List Char) : charAt s s.length = '\x00' := by
  simp [charAt]

/-- No character of a source is its NUL. -/
theorem ne_nul_of_text {l : CharStream} {pre rest : List Char} {c : Char}
    (h : l.source.val = pre ++ c :: rest) : c ≠ '\x00' := by
  rintro rfl
  exact l.source.property (by rw [h]; simp)

/-- Reading a fresh stream gives the next character and its location. -/
theorem Fresh.sourceStreamNext_cons {l : CharStream} {pre rest : List Char} {c : Char}
    (h : Fresh l pre (c :: rest)) :
    ∃ l', sourceStreamNext l = (some (readChar c, locationAfter pre), l') ∧
      Fresh l' (pre ++ [c]) rest := by
  have hnul := ne_nul_of_text h.text
  unfold sourceStreamNext
  simp only [h.ptr, h.text, charAt_append, if_neg hnul, h.nextLoc]
  by_cases hc : c = '\n'
  · have hread : readChar c = ' ' := if_pos hc
    simp only [if_pos hc, hread]
    refine ⟨_, rfl, by simp [h.text], h.hasPeek, by simp, ?_⟩
    rw [locationAfter_snoc, locationStep, if_pos hc]
  · have hread : readChar c = c := if_neg hc
    simp only [if_neg hc, hread]
    refine ⟨_, rfl, by simp [h.text], h.hasPeek, by simp, ?_⟩
    rw [locationAfter_snoc, locationStep, if_neg hc]

/-- A peek shows the next character. -/
theorem Reading.lexerPeekChar_cons {l : CharStream} {pre rest : List Char} {c : Char}
    (h : Reading l pre (c :: rest)) :
    ∃ l', lexerPeekChar l = (some (readChar c, locationAfter pre), l') ∧
      Peeked l' pre c rest := by
  cases h with
  | fresh h =>
      obtain ⟨l', hnext, h'⟩ := h.sourceStreamNext_cons
      unfold lexerPeekChar
      rw [h.hasPeek, hnext]
      refine ⟨_, rfl, ?_, rfl, ?_, h'.nextLoc, rfl, rfl⟩
      · rw [h'.text]
        simp
      · rw [h'.ptr]
        simp
  | peeked h =>
      refine ⟨l, ?_, h⟩
      unfold lexerPeekChar
      rw [if_pos h.hasPeek, h.peekChar, h.peekLoc]

/-- At the end a peek fails. -/
theorem Reading.lexerPeekChar_nil {l : CharStream} {pre : List Char} (h : Reading l pre []) :
    ∃ l', lexerPeekChar l = (none, l') ∧ Ended l' pre := by
  cases h with
  | fresh h =>
      have htext : l.source.val = pre := by simpa using h.text
      unfold lexerPeekChar sourceStreamNext
      simp only [h.hasPeek, h.ptr, htext, charAt_length, if_true]
      exact ⟨_, rfl, htext, rfl, rfl⟩
  | ended h =>
      unfold lexerPeekChar sourceStreamNext
      simp only [h.hasPeek, h.ptr]
      exact ⟨_, rfl, h.text, rfl, rfl⟩

/-- The stream that has seen the end stays as it is. -/
theorem Ended.lexerPeekChar {l : CharStream} {pre : List Char} (h : Ended l pre) :
    lexerPeekChar l = (none, l) := by
  obtain ⟨-, hpeek, hptr⟩ := h
  cases l
  simp only at hpeek hptr
  subst hpeek hptr
  rfl

/-- The character that was peeked at comes next. -/
theorem Peeked.lexerNextChar {l : CharStream} {pre rest : List Char} {c : Char}
    (h : Peeked l pre c rest) :
    ∃ l', lexerNextChar l = (some (readChar c, locationAfter pre), l') ∧
      Fresh l' (pre ++ [c]) rest := by
  unfold Nucleus.Lang.lexerNextChar
  rw [if_pos h.hasPeek, h.peekChar, h.peekLoc]
  refine ⟨_, rfl, ?_, rfl, ?_, h.nextLoc⟩
  · rw [h.text]
    simp
  · rw [h.ptr]
    simp

/-- A character that was peeked at can be dropped. -/
theorem Peeked.consumeChar {l : CharStream} {pre rest : List Char} {c : Char}
    (h : Peeked l pre c rest) : Fresh (consumeChar l) (pre ++ [c]) rest := by
  obtain ⟨l', hnext, h'⟩ := h.lexerNextChar
  unfold Nucleus.Lang.consumeChar
  rw [hnext]
  exact h'

/-- The fuel of the loops is what is left. -/
theorem Reading.remaining_eq {l : CharStream} {pre rest : List Char} (h : Reading l pre rest) :
    l.remaining = rest.length := by
  have htext := h.text
  unfold CharStream.remaining
  cases h with
  | fresh h => simp [h.ptr, h.hasPeek, htext]
  | peeked h =>
      simp only [h.ptr, h.hasPeek, htext, if_true, List.length_append, List.length_cons]
      omega
  | ended h => simp [h.ptr, h.hasPeek]

/-- One character back from the stream the text begins with the character that was peeked at. -/
theorem Peeked.text_one {l : CharStream} {pre rest : List Char} {c : Char}
    (h : Peeked l pre c rest) : l.text 1 = c :: rest := by
  simp [CharStream.text, h.ptr, h.text]

/-- The text at the place of the stream is what is left. -/
theorem Fresh.text_zero {l : CharStream} {pre rest : List Char} (h : Fresh l pre rest) :
    l.text 0 = rest := by
  simp [CharStream.text, h.ptr, h.text]

/-! ### Loops over characters -/

/-- The loop stops behind the spaces. The induction is on what is left. -/
theorem consumeSpacesLoop_spec : ∀ {rest : List Char} {fuel : Nat} {l : CharStream}
    {pre : List Char}, rest.length < fuel → Reading l pre rest →
    Reading (consumeSpacesLoop fuel l) (pre ++ rest.takeWhile isSpace)
      (rest.dropWhile isSpace) := by
  intro rest
  induction rest with
  | nil =>
      intro fuel l pre hfuel h
      obtain ⟨fuel, rfl⟩ := Nat.exists_eq_add_of_lt hfuel
      obtain ⟨l', hpeek, h'⟩ := h.lexerPeekChar_nil
      simp only [consumeSpacesLoop, hpeek]
      simpa using Reading.ended h'
  | cons c rest ih =>
      intro fuel l pre hfuel h
      obtain ⟨fuel, rfl⟩ : ∃ m, fuel = m + 1 := ⟨fuel - 1, by simp at hfuel; omega⟩
      obtain ⟨l', hpeek, h'⟩ := h.lexerPeekChar_cons
      simp only [consumeSpacesLoop, hpeek]
      by_cases hc : readChar c = ' '
      · rw [if_neg (not_not.mpr hc)]
        have hspace : isSpace c = true := by simp [isSpace, hc]
        rw [List.takeWhile_cons_of_pos hspace, List.dropWhile_cons_of_pos hspace]
        have hlen : rest.length < fuel := by simpa using hfuel
        have hread := ih hlen (.fresh h'.consumeChar)
        simpa using hread
      · -- the first character that is no space ends the loop
        rw [if_pos hc]
        have hspace : ¬ isSpace c = true := by simp [isSpace, hc]
        rw [List.takeWhile_cons_of_neg hspace, List.dropWhile_cons_of_neg hspace]
        simpa using Reading.peeked h'

/-- All spaces are skipped. -/
theorem consumeSpaces_spec {l : CharStream} {pre rest : List Char} (h : Reading l pre rest) :
    Reading (consumeSpaces l) (pre ++ rest.takeWhile isSpace) (rest.dropWhile isSpace) :=
  consumeSpacesLoop_spec (by rw [h.remaining_eq]; exact Nat.lt_succ_self _) h

/-- The loop stops behind the identifier characters, with the place of the last one and their
number. -/
theorem consumeIdentifierLoop_spec : ∀ {rest : List Char} {fuel : Nat} {l : CharStream}
    {pre : List Char} (stop : Location) (n : Nat), rest.length < fuel → Reading l pre rest →
    ∃ l', consumeIdentifierLoop fuel stop n l =
        ((lastLocation pre (rest.takeWhile identifierChar) stop,
          n + (rest.takeWhile identifierChar).length), l') ∧
      Reading l' (pre ++ rest.takeWhile identifierChar) (rest.dropWhile identifierChar) := by
  intro rest
  induction rest with
  | nil =>
      intro fuel l pre stop n hfuel h
      obtain ⟨fuel, rfl⟩ := Nat.exists_eq_add_of_lt hfuel
      obtain ⟨l', hpeek, h'⟩ := h.lexerPeekChar_nil
      simp only [consumeIdentifierLoop, hpeek]
      exact ⟨l', by simp [lastLocation], by simpa using Reading.ended h'⟩
  | cons c rest ih =>
      intro fuel l pre stop n hfuel h
      obtain ⟨fuel, rfl⟩ : ∃ m, fuel = m + 1 := ⟨fuel - 1, by simp at hfuel; omega⟩
      obtain ⟨l', hpeek, h'⟩ := h.lexerPeekChar_cons
      simp only [consumeIdentifierLoop, hpeek, identifierChar_readChar]
      by_cases hc : identifierChar c = true
      · rw [if_neg (by simp [hc]), List.takeWhile_cons_of_pos hc, List.dropWhile_cons_of_pos hc]
        obtain ⟨l'', hloop, h''⟩ := ih (locationAfter pre) (n + 1) (by simpa using hfuel)
          (.fresh h'.consumeChar)
        refine ⟨l'', ?_, by simpa using h''⟩
        rw [hloop, lastLocation_cons, List.length_cons, Nat.add_right_comm, Nat.add_assoc]
      · -- the first other character ends the loop, and the word with it
        rw [if_pos (by simpa using hc), List.takeWhile_cons_of_neg hc,
          List.dropWhile_cons_of_neg hc]
        exact ⟨l', by simp [lastLocation], by simpa using Reading.peeked h'⟩

/-- A line number differs from the next one, also when it wraps. -/
theorem line_succ_ne (line : UInt16) : line + 1 ≠ line := by
  intro h
  have := congrArg UInt16.toNat h
  simp only [UInt16.toNat_add] at this
  have hlt := line.toNat_lt
  rw [show (1 : UInt16).toNat = 1 from rfl] at this
  omega

/-- The comment loop on the line of its start: it consumes up to the newline and the newline. -/
theorem consumeCommentLoop_spec : ∀ {rest : List Char} {fuel : Nat} {l : CharStream}
    {pre : List Char} {start : Location}, rest.length < fuel → Reading l pre rest →
    (locationAfter pre).line = start.line →
    ∃ pre' rest', pre' ++ rest' = rest ∧ Reading (consumeCommentLoop start fuel l)
      (pre ++ pre') rest' ∧
      ((pre' = rest ∧ rest' = [] ∧ '\n' ∉ rest) ∨ ∃ body, '\n' ∉ body ∧ pre' = body ++ ['\n']) := by
  intro rest
  -- on the characters that are left; all that are read before the newline are on one line
  induction rest with
  | nil =>
      intro fuel l pre start hfuel h hline
      obtain ⟨fuel, rfl⟩ := Nat.exists_eq_add_of_lt hfuel
      obtain ⟨l', hpeek, h'⟩ := h.lexerPeekChar_nil
      simp only [consumeCommentLoop, hpeek]
      exact ⟨[], [], rfl, by simpa using Reading.ended h', Or.inl ⟨rfl, rfl, by simp⟩⟩
  | cons c rest ih =>
      intro fuel l pre start hfuel h hline
      obtain ⟨fuel, rfl⟩ : ∃ m, fuel = m + 1 := ⟨fuel - 1, by simp at hfuel; omega⟩
      obtain ⟨l', hpeek, h'⟩ := h.lexerPeekChar_cons
      simp only [consumeCommentLoop, hpeek]
      rw [if_neg (not_not.mpr hline)]
      have hfresh := Reading.fresh h'.consumeChar
      by_cases hc : c = '\n'
      · -- the newline is still on the line of the comment, the next character is not
        subst hc
        refine ⟨['\n'], rest, rfl, ?_, Or.inr ⟨[], by simp, rfl⟩⟩
        have hnext : (locationAfter (pre ++ ['\n'])).line ≠ start.line := by
          rw [locationAfter_snoc, locationStep, if_pos rfl, ← hline]
          exact line_succ_ne _
        cases fuel with
        | zero => simp at hfuel
        | succ fuel =>
            cases rest with
            | nil =>
                obtain ⟨l'', hpeek'', h''⟩ := hfresh.lexerPeekChar_nil
                simp only [consumeCommentLoop, hpeek'']
                exact .ended h''
            | cons d rest =>
                obtain ⟨l'', hpeek'', h''⟩ := hfresh.lexerPeekChar_cons
                simp only [consumeCommentLoop, hpeek'', if_pos hnext]
                exact .peeked h''
      · have hline' : (locationAfter (pre ++ [c])).line = start.line := by
          rw [locationAfter_snoc, locationStep, if_neg hc, ← hline]
        obtain ⟨pre', rest', happ, hread, hcase⟩ :=
          ih (by simpa using hfuel) hfresh hline'
        refine ⟨c :: pre', rest', by rw [List.cons_append, happ], by simpa using hread, ?_⟩
        rcases hcase with ⟨rfl, rfl, hmem⟩ | ⟨body, hbody, rfl⟩
        · exact Or.inl ⟨rfl, rfl, by simp [Ne.symm hc, hmem]⟩
        · exact Or.inr ⟨c :: body, by simp [Ne.symm hc, hbody], rfl⟩

/-- Nothing goes on with a numeral: no dot and no identifier character follows it. -/
def NumeralEnds (rest : List Char) : Prop :=
  ∀ c ∈ rest.head?, c ≠ '.' ∧ identifierChar c = false

/-- What the loop of a numeral comes to. It stands behind the numeral and has counted its
characters, or something goes on with the numeral, and that is an error. -/
inductive NumeralRead (start stop : Location) (pre rest : List Char) (n : Nat) (hasDot : Bool) :
    Except LexError (Location × Nat × Bool) × CharStream → Prop where
  | counted {l' : CharStream}
      (hread : Reading l' (pre ++ numeralPrefix hasDot rest) (numeralRest hasDot rest))
      (hends : NumeralEnds (numeralRest hasDot rest)) :
      NumeralRead start stop pre rest n hasDot
        (.ok (lastLocation pre (numeralPrefix hasDot rest) stop,
          n + (numeralPrefix hasDot rest).length,
          hasDot || decide ('.' ∈ numeralPrefix hasDot rest)), l')
  | continued {loc : Location} {l' : CharStream}
      (hread : Reading l' (pre ++ numeralPrefix hasDot rest) (numeralRest hasDot rest))
      (hends : ¬ NumeralEnds (numeralRest hasDot rest)) :
      NumeralRead start stop pre rest n hasDot
        (.error ⟨some .illegalCharacter, some ⟨start, loc⟩⟩, l')

section
variable {start stop : Location} {pre rest : List Char} {n : Nat} {hasDot hasDot' : Bool}
  {c : Char} {l' : CharStream}

/-- One more character of the numeral. -/
theorem NumeralRead.cons {q : Except LexError (Location × Nat × Bool) × CharStream}
    (hdot : hasDot' = (hasDot || decide (c = '.')))
    (hpre : numeralPrefix hasDot (c :: rest) = c :: numeralPrefix hasDot' rest)
    (hrest : numeralRest hasDot (c :: rest) = numeralRest hasDot' rest)
    (h : NumeralRead start (locationAfter pre) (pre ++ [c]) rest (n + 1) hasDot' q) :
    NumeralRead start stop pre (c :: rest) n hasDot q := by
  -- the character in front counts for the length, the last location and the dot
  have hmem : (hasDot' || decide ('.' ∈ numeralPrefix hasDot' rest)) =
      (hasDot || decide ('.' ∈ numeralPrefix hasDot (c :: rest))) := by
    rw [hpre]
    generalize numeralPrefix hasDot' rest = cs
    rw [hdot, Bool.or_assoc, ← Bool.decide_or]
    simp [eq_comm]
  have hlength : n + 1 + (numeralPrefix hasDot' rest).length =
      n + (numeralPrefix hasDot (c :: rest)).length := by
    rw [hpre, List.length_cons]
    omega
  have hlast : lastLocation (pre ++ [c]) (numeralPrefix hasDot' rest) (locationAfter pre) =
      lastLocation pre (numeralPrefix hasDot (c :: rest)) stop := by
    rw [hpre, lastLocation_cons]
  have hsplit : pre ++ [c] ++ numeralPrefix hasDot' rest =
      pre ++ numeralPrefix hasDot (c :: rest) := by
    rw [hpre, List.append_assoc, List.singleton_append]
  cases h with
  | counted hread hends =>
      rw [hmem, hlength, hlast]
      exact .counted (by rwa [← hsplit, hrest]) (by rwa [hrest])
  | continued hread hends => exact .continued (by rwa [← hsplit, hrest]) (by rwa [hrest])

/-- The numeral ends here, in front of `rest`. -/
theorem NumeralRead.here (hpre : numeralPrefix hasDot rest = [])
    (hrest : numeralRest hasDot rest = rest) (hread : Reading l' pre rest)
    (hends : NumeralEnds rest) :
    NumeralRead start stop pre rest n hasDot (.ok (stop, n, hasDot), l') := by
  have hread' : Reading l' (pre ++ numeralPrefix hasDot rest) (numeralRest hasDot rest) := by
    rwa [hpre, hrest, List.append_nil]
  have h : NumeralRead start stop pre rest n hasDot _ := .counted hread' (by rwa [hrest])
  simpa [hpre, lastLocation] using h

/-- The character behind the numeral goes on with it. -/
theorem NumeralRead.stuck {loc : Location} (hpre : numeralPrefix hasDot (c :: rest) = [])
    (hrest : numeralRest hasDot (c :: rest) = c :: rest) (hread : Reading l' pre (c :: rest))
    (hc : c = '.' ∨ identifierChar c = true) :
    NumeralRead start stop pre (c :: rest) n hasDot
      (.error ⟨some .illegalCharacter, some ⟨start, loc⟩⟩, l') := by
  refine .continued (by rwa [hpre, hrest, List.append_nil]) fun hends => ?_
  rw [hrest] at hends
  obtain ⟨hne, hident⟩ := hends c rfl
  rcases hc with hc | hc
  · exact hne hc
  · rw [hident] at hc
    cases hc

end

/-- The loop reads the numeral and looks at what goes on with it. The induction is on what is left.
-/
theorem consumeNumberLoop_spec (start : Location) : ∀ {rest : List Char} {fuel : Nat}
    {l : CharStream} {pre : List Char} (stop : Location) (n : Nat) (hasDot : Bool),
    rest.length < fuel → Reading l pre rest →
    NumeralRead start stop pre rest n hasDot (consumeNumberLoop start fuel stop n hasDot l) := by
  intro rest
  induction rest with
  | nil =>
      intro fuel l pre stop n hasDot hfuel h
      obtain ⟨fuel, rfl⟩ := Nat.exists_eq_add_of_lt hfuel
      obtain ⟨l', hpeek, h'⟩ := h.lexerPeekChar_nil
      simp only [consumeNumberLoop, hpeek]
      exact .here rfl rfl (.ended h') (by rintro _ ⟨⟩)
  | cons c rest ih =>
      intro fuel l pre stop n hasDot hfuel h
      obtain ⟨fuel, rfl⟩ : ∃ m, fuel = m + 1 := ⟨fuel - 1, by simp at hfuel; omega⟩
      obtain ⟨l', hpeek, h'⟩ := h.lexerPeekChar_cons
      have hread := Reading.peeked h'
      have hdot : readChar c = '.' ↔ c = '.' := readChar_eq_iff (by decide) (by decide)
      simp only [consumeNumberLoop, hpeek, numericChar_readChar, identifierChar_readChar, hdot]
      have hstep := fun hasDot' => ih (locationAfter pre) (n + 1) hasDot' (by simpa using hfuel)
        (.fresh h'.consumeChar)
      by_cases hnum : numericChar c = true
      · -- a digit
        have hne : c ≠ '.' := by
          rintro rfl
          exact absurd hnum (by decide)
        rw [if_pos (Or.inl hnum), if_neg fun h => hne h.1]
        simp only [hne, decide_false, Bool.or_false]
        exact .cons (by simp [hne]) (by simp [numeralPrefix, hnum]) (by simp [numeralRest, hnum])
          (hstep hasDot)
      by_cases hc : c = '.'
      · rw [if_pos (Or.inr hc)]
        cases hasDot with
        | true =>
            -- a second dot
            rw [if_pos ⟨hc, rfl⟩]
            exact .stuck (by simp [numeralPrefix, hnum]) (by simp [numeralRest, hnum]) hread
              (Or.inl hc)
        | false =>
            rw [if_neg (fun h => by simp at h)]
            simp only [hc, decide_true, Bool.false_or]
            have hpre : numeralPrefix false ('.' :: rest) = '.' :: numeralPrefix true rest := rfl
            have hrest : numeralRest false ('.' :: rest) = numeralRest true rest := rfl
            rw [hc] at hstep
            exact .cons rfl hpre hrest (hstep true)
      · have hpre : numeralPrefix hasDot (c :: rest) = [] := by simp [numeralPrefix, hnum, hc]
        have hrest : numeralRest hasDot (c :: rest) = c :: rest := by
          simp [numeralRest, hnum, hc]
        rw [if_neg (by simp [hnum, hc])]
        split
        · rename_i hident
          exact .stuck hpre hrest hread (Or.inr hident)
        · rename_i hident
          refine .here hpre hrest hread fun d hd => ?_
          obtain rfl : c = d := by simpa using hd
          exact ⟨hc, by simpa using hident⟩

/-- The string loop consumes up to the closing quote and the quote, or to the end. -/
theorem consumeStringLoop_spec (start : Location) (s : List Char) : ∀ {rest : List Char}
    {fuel : Nat} {l : CharStream} {pre : List Char} (n : Nat), rest.length < fuel →
    Reading l pre rest →
    ∃ result l', consumeStringLoop start s fuel n l = (result, l') ∧
      ((∃ body rest', rest = body ++ '\'' :: rest' ∧ '\'' ∉ body ∧
          result = .ok ⟨.tokenLiteral, ⟨start, locationAfter (pre ++ body)⟩,
            .literal (.literalString ⟨s, n + body.length⟩)⟩ ∧
          Reading l' (pre ++ body ++ ['\'']) rest') ∨
        ('\'' ∉ rest ∧ result = .error ⟨some .unterminatedString, some ⟨start, start⟩⟩ ∧
          Reading l' (pre ++ rest) [])) := by
  intro rest
  induction rest with
  | nil =>
      intro fuel l pre n hfuel h
      obtain ⟨fuel, rfl⟩ := Nat.exists_eq_add_of_lt hfuel
      obtain ⟨l', hpeek, h'⟩ := h.lexerPeekChar_nil
      simp only [consumeStringLoop, hpeek]
      exact ⟨_, l', rfl, Or.inr ⟨by simp, rfl, by simpa using Reading.ended h'⟩⟩
  | cons c rest ih =>
      intro fuel l pre n hfuel h
      obtain ⟨fuel, rfl⟩ : ∃ m, fuel = m + 1 := ⟨fuel - 1, by simp at hfuel; omega⟩
      obtain ⟨l', hpeek, h'⟩ := h.lexerPeekChar_cons
      have hquote : readChar c = '\'' ↔ c = '\'' := readChar_eq_iff (by decide) (by decide)
      simp only [consumeStringLoop, hpeek, hquote]
      by_cases hc : c = '\''
      · subst hc
        rw [if_pos rfl]
        exact ⟨_, _, rfl, Or.inl ⟨[], rest, rfl, by simp, by simp,
          by simpa using Reading.fresh h'.consumeChar⟩⟩
      · -- any other character belongs to the string
        rw [if_neg hc]
        obtain ⟨result, l'', hloop, hcase⟩ := ih (n + 1) (by simpa using hfuel)
          (.fresh h'.consumeChar)
        refine ⟨result, l'', hloop, ?_⟩
        rcases hcase with ⟨body, rest', rfl, hbody, hres, h''⟩ | ⟨hmem, hres, h''⟩
        · refine Or.inl ⟨c :: body, rest', by simp, by simp [Ne.symm hc, hbody], ?_,
            by simpa using h''⟩
          rw [hres, List.length_cons, Nat.add_right_comm n 1, Nat.add_assoc]
          simp
        · exact Or.inr ⟨by simp [Ne.symm hc, hmem], hres, by simpa using h''⟩

/-! ### Numerals -/

section
variable {span : Span} {s : List Char} {n : Nat} {hasDot : Bool}

/-- A numeral that becomes a token is a number. -/
theorem numberToken_ok {t : Token} (h : numberToken span s n hasDot = .ok t) :
    ∃ l, t = ⟨.tokenLiteral, span, .literal l⟩ ∧
      ((∃ f, l = .literalFix f) ∨ ∃ i, l = .literalInt i) := by
  unfold numberToken at h
  split at h
  · split at h
    · cases h
    · cases h
    · rename_i f _
      cases h
      exact ⟨_, rfl, Or.inl ⟨f, rfl⟩⟩
  · split at h
    · cases h
    · cases h
    · rename_i i _
      cases h
      exact ⟨_, rfl, Or.inr ⟨i.toUInt32, rfl⟩⟩

/-- A numeral that becomes none has a digit loop that never ends, or its place is in the error. -/
theorem numberToken_error {e : LexError} (h : numberToken span s n hasDot = .error e) :
    e = .endless ∨ ∃ code, code ≠ .outOfNode ∧ e = ⟨some code, some span⟩ := by
  unfold numberToken at h
  split at h
  · split at h
    · cases h
      exact Or.inl rfl
    · cases h
      exact Or.inr ⟨.parseFixedPoint, nofun, rfl⟩
    · cases h
  · split at h
    · cases h
      exact Or.inl rfl
    · cases h
      exact Or.inr ⟨.illegalCharacter, nofun, rfl⟩
    · cases h

end

end Nucleus.Proofs
