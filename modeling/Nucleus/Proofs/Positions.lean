import Nucleus.Proofs.Lexing

/-!
# `Nucleus.Proofs.Positions`: what the lexer reports lies in the source

The index of a location never passes the length of the source (`CharStream.Inside` is kept by
every function of the lexer), so every token starts in the source, and so does the span of every
error. One error has no span: the `!` that no `=` follows (`inside_resultsOf`).
-/

set_option autoImplicit false

namespace Nucleus.Lang

/-- The position of a span is in a source with `n` characters, or right behind it. -/
def Span.Inside (n : Nat) (s : Span) : Prop := s.start.index.toNat ≤ n

/-- The locations of a lexer are in its source, which has `n` characters. -/
structure CharStream.Inside (n : Nat) (l : CharStream) : Prop where
  length : l.source.val.length = n
  nextLoc : ∀ i, l.ptr = some i → l.nextLoc.index.toNat ≤ i ∧ i ≤ n
  peekLoc : l.peekLoc.index.toNat ≤ n

/-- A token starts in the source, and an error that has a span too. -/
def LexResult.Inside (n : Nat) : LexResult → Prop
  | .ok t => t.span.Inside n
  | .error e => e.code ≠ some .outOfNode ∧ (∀ s, e.span = some s → s.Inside n) ∧
      (e.span = none → e.code = none ∨ e.code = some .illegalCharacter)

end Nucleus.Lang

namespace Nucleus.Proofs

open Nucleus.Vm (charAt)
open Nucleus.Lang
open Nucleus.Spec

variable {n : Nat}

/-! ### Characters -/

/-- A character that was read, and the lexer behind it. -/
def ReadsInside (n : Nat) (r : Option (Char × Location) × CharStream) : Prop :=
  r.2.Inside n ∧ ∀ c loc, r.1 = some (c, loc) → loc.index.toNat ≤ n

/-- The stream gives a place inside the source, and goes on to the next one. -/
theorem inside_sourceStreamNext {l : CharStream} (h : l.Inside n) :
    ReadsInside n (sourceStreamNext l) := by
  unfold sourceStreamNext
  split
  · exact ⟨h, by simp⟩
  · rename_i i hptr
    obtain ⟨hindex, hi⟩ := h.nextLoc i hptr
    -- the index wraps at the most, so it never passes the pointer
    have hsucc : (l.nextLoc.index + 1).toNat ≤ i + 1 := by
      rw [UInt32.toNat_add]
      exact (Nat.mod_le _ _).trans (Nat.succ_le_succ hindex)
    have hlt : charAt l.source.val i ≠ '\x00' → i + 1 ≤ n := by
      intro hchar
      rw [← h.length]
      refine Nat.lt_of_not_le fun hge => hchar ?_
      simp [charAt, List.getElem?_eq_none hge]
    dsimp only
    split
    · exact ⟨⟨h.length, by simp, h.peekLoc⟩, by simp⟩
    · rename_i hchar
      have hnext : ∀ {loc : Location}, loc.index = l.nextLoc.index + 1 →
          ∀ j, some (i + 1) = some j → loc.index.toNat ≤ j ∧ j ≤ n := by
        rintro loc hloc j hj
        cases hj
        rw [hloc]
        exact ⟨hsucc, hlt hchar⟩
      have hhere : ∀ {c d : Char} {loc : Location}, some (c, l.nextLoc) = some (d, loc) →
          loc.index.toNat ≤ n := by
        rintro c d loc heq
        cases heq
        exact hindex.trans hi
      split
      · exact ⟨⟨h.length, hnext rfl, h.peekLoc⟩, fun _ _ => hhere⟩
      · exact ⟨⟨h.length, hnext rfl, h.peekLoc⟩, fun _ _ => hhere⟩

/-- The next character has a place inside. -/
theorem inside_lexerNextChar {l : CharStream} (h : l.Inside n) :
    ReadsInside n (lexerNextChar l) := by
  unfold lexerNextChar
  split
  · refine ⟨⟨h.length, h.nextLoc, h.peekLoc⟩, fun c loc heq => ?_⟩
    cases heq
    exact h.peekLoc
  · exact inside_sourceStreamNext h

/-- The character that is peeked at has a place inside. -/
theorem inside_lexerPeekChar {l : CharStream} (h : l.Inside n) :
    ReadsInside n (lexerPeekChar l) := by
  unfold lexerPeekChar
  split
  · refine ⟨h, fun c loc heq => ?_⟩
    cases heq
    exact h.peekLoc
  · obtain ⟨hnext, hloc⟩ := inside_sourceStreamNext h
    split
    · rename_i next hrun
      rw [hrun] at hnext
      split
      · exact ⟨⟨hnext.length, hnext.nextLoc, hnext.peekLoc⟩, nofun⟩
      · -- at the end, the location of the last character is kept
        rename_i hptr
        obtain ⟨i, hi⟩ := Option.ne_none_iff_exists'.mp hptr
        obtain ⟨hindex, hle⟩ := h.nextLoc i hi
        exact ⟨⟨hnext.length, hnext.nextLoc, hindex.trans hle⟩, nofun⟩
    · rename_i c loc next hrun
      rw [hrun] at hnext hloc
      refine ⟨⟨hnext.length, hnext.nextLoc, hloc c loc rfl⟩, fun d loc' heq => ?_⟩
      cases heq
      exact hloc c loc rfl

/-- Dropping a character stays inside. -/
theorem inside_consumeChar {l : CharStream} (h : l.Inside n) : (consumeChar l).Inside n :=
  (inside_lexerNextChar h).1

/-! ### Loops -/

/-- The loop over a comment stays inside. The induction is on its fuel. -/
theorem inside_consumeCommentLoop (startLoc : Location) (fuel : Nat) {l : CharStream}
    (h : l.Inside n) : (consumeCommentLoop startLoc fuel l).Inside n := by
  induction fuel generalizing l with
  | zero => exact h
  | succ fuel ih =>
      have hpeek := (inside_lexerPeekChar h).1
      unfold consumeCommentLoop
      split
      · rename_i hrun
        rwa [hrun] at hpeek
      · rename_i hrun
        rw [hrun] at hpeek
        split
        · exact hpeek
        · exact ih (inside_consumeChar hpeek)

/-- A comment stays inside. -/
theorem inside_consumeComment {l : CharStream} (h : l.Inside n) : (consumeComment l).Inside n :=
  inside_consumeCommentLoop _ _ (inside_lexerPeekChar h).1

/-- The loop over spaces stays inside. The induction is on its fuel. -/
theorem inside_consumeSpacesLoop (fuel : Nat) {l : CharStream} (h : l.Inside n) :
    (consumeSpacesLoop fuel l).Inside n := by
  induction fuel generalizing l with
  | zero => exact h
  | succ fuel ih =>
      have hpeek := (inside_lexerPeekChar h).1
      unfold consumeSpacesLoop
      split
      · rename_i hrun
        rwa [hrun] at hpeek
      · rename_i hrun
        rw [hrun] at hpeek
        split
        · exact hpeek
        · exact ih (inside_consumeChar hpeek)

/-- The loop over a word stays inside. The induction is on its fuel. -/
theorem inside_consumeIdentifierLoop (fuel : Nat) (stopLoc : Location) (m : Nat) {l : CharStream}
    (h : l.Inside n) : (consumeIdentifierLoop fuel stopLoc m l).2.Inside n := by
  induction fuel generalizing stopLoc m l with
  | zero => exact h
  | succ fuel ih =>
      have hpeek := (inside_lexerPeekChar h).1
      unfold consumeIdentifierLoop
      split
      · rename_i hrun
        rwa [hrun] at hpeek
      · rename_i hrun
        rw [hrun] at hpeek
        split
        · exact hpeek
        · exact ih _ _ (inside_consumeChar hpeek)

/-! ### Items -/

/-- The result of a call and the lexer behind it. -/
def CallInside (n : Nat) (r : LexResult × CharStream) : Prop :=
  LexResult.Inside n r.1 ∧ r.2.Inside n

/-- An error that stores a span. -/
theorem inside_error {code : Error} {s : Span} (hcode : code ≠ .outOfNode) (hs : s.Inside n) :
    LexResult.Inside n (.error ⟨some code, some s⟩) := by
  refine ⟨fun heq => hcode (Option.some.inj heq), fun s' heq => ?_, nofun⟩
  cases heq
  exact hs

/-- A numeral without an end has no place. -/
theorem inside_endless : LexResult.Inside n (.error .endless) :=
  ⟨nofun, nofun, fun _ => Or.inl rfl⟩

/-- The loop over a string stays inside, and its result starts where the string does. -/
theorem inside_consumeStringLoop {startLoc : Location} (hstart : startLoc.index.toNat ≤ n)
    (s : List Char) (fuel : Nat) {m : Nat} {l : CharStream} (h : l.Inside n) :
    CallInside n (consumeStringLoop startLoc s fuel m l) := by
  have hopen : LexResult.Inside n (.error ⟨some .unterminatedString, some ⟨startLoc, startLoc⟩⟩) :=
    inside_error (s := ⟨startLoc, startLoc⟩) (by decide) hstart
  induction fuel generalizing m l with
  | zero => exact ⟨hopen, h⟩
  | succ fuel ih =>
      have hpeek := (inside_lexerPeekChar h).1
      unfold consumeStringLoop
      -- the only error of the loop is at the start of the string, and it is set when the source
      -- ends
      split
      · rename_i hrun
        rw [hrun] at hpeek
        exact ⟨hopen, hpeek⟩
      · rename_i hrun
        rw [hrun] at hpeek
        have hconsume := inside_consumeChar hpeek
        dsimp only
        split
        · exact ⟨hstart, hconsume⟩
        · exact ih hconsume

/-- A string has its place inside. -/
theorem inside_consumeString {l : CharStream} (h : l.Inside n) :
    CallInside n (consumeString l) := by
  obtain ⟨hnext, hloc⟩ := inside_lexerNextChar h
  unfold consumeString
  split
  · rename_i hrun
    rw [hrun] at hnext
    exact ⟨Nat.zero_le n, hnext⟩
  · rename_i hrun
    rw [hrun] at hnext hloc
    exact inside_consumeStringLoop (hloc _ _ rfl) _ _ hnext

/-- The loop over a numeral stays inside, and so does the place of its error. -/
theorem inside_consumeNumberLoop {startLoc : Location} (hstart : startLoc.index.toNat ≤ n)
    (fuel : Nat) (stopLoc : Location) (m : Nat) (hasDot : Bool) {l : CharStream}
    (h : l.Inside n) :
    (consumeNumberLoop startLoc fuel stopLoc m hasDot l).2.Inside n ∧
      ∀ e, (consumeNumberLoop startLoc fuel stopLoc m hasDot l).1 = .error e →
        LexResult.Inside n (.error e) := by
  induction fuel generalizing stopLoc m hasDot l with
  | zero => exact ⟨h, nofun⟩
  | succ fuel ih =>
      have hpeek := (inside_lexerPeekChar h).1
      unfold consumeNumberLoop
      split
      · rename_i hrun
        rw [hrun] at hpeek
        exact ⟨hpeek, nofun⟩
      · rename_i hrun
        rw [hrun] at hpeek
        -- both errors of the loop start where the numeral does
        have hbad : ∀ {stop : Location} {e : LexError},
            (Except.error ⟨some .illegalCharacter, some ⟨startLoc, stop⟩⟩ :
              Except LexError (Location × Nat × Bool)) = .error e →
              LexResult.Inside n (.error e) := by
          rintro stop e heq
          cases heq
          exact inside_error (s := ⟨startLoc, stop⟩) (by decide) hstart
        split
        · split
          · exact ⟨hpeek, fun _ => hbad⟩
          · exact ih _ _ _ (inside_consumeChar hpeek)
        · split
          · exact ⟨hpeek, fun _ => hbad⟩
          · exact ⟨hpeek, nofun⟩

/-- The token of a numeral starts where the numeral does. -/
theorem inside_numberToken {start stop : Location} (hstart : start.index.toNat ≤ n)
    (s : List Char) (m : Nat) (hasDot : Bool) :
    LexResult.Inside n (numberToken ⟨start, stop⟩ s m hasDot) := by
  cases hresult : numberToken ⟨start, stop⟩ s m hasDot with
  | error e =>
      rcases numberToken_error hresult with rfl | ⟨code, hcode, rfl⟩
      · exact inside_endless
      · exact inside_error hcode hstart
  | ok t =>
      obtain ⟨l, rfl, -⟩ := numberToken_ok hresult
      exact hstart

/-- A numeral has its place inside. -/
theorem inside_consumeNumber {l : CharStream} (h : l.Inside n) :
    CallInside n (consumeNumber l) := by
  have hpeek := (inside_lexerPeekChar h).1
  have hloop := inside_consumeNumberLoop hpeek.peekLoc ((lexerPeekChar l).2.remaining + 1)
    (lexerPeekChar l).2.peekLoc 0 false hpeek
  unfold consumeNumber
  dsimp only
  split
  · rename_i e l' hrun
    rw [hrun] at hloop
    exact ⟨hloop.2 e rfl, hloop.1⟩
  · rename_i hrun
    rw [hrun] at hloop
    exact ⟨inside_numberToken hpeek.peekLoc _ _ _, hloop.1⟩

/-- A word has its place inside. -/
theorem inside_consumeIdentifier {l : CharStream} (h : l.Inside n) :
    CallInside n (consumeIdentifier l) := by
  have hpeek := (inside_lexerPeekChar h).1
  have hloop := inside_consumeIdentifierLoop ((lexerPeekChar l).2.remaining + 1)
    (lexerPeekChar l).2.peekLoc 0 hpeek
  exact ⟨hpeek.peekLoc, hloop⟩

/-- A symbol of two characters has its place inside. -/
theorem inside_consumeDoubleCharToken {l : CharStream} {double : TokenType}
    {single : Option TokenType} {loc : Location} (h : l.Inside n) (hloc : loc.index.toNat ≤ n) :
    CallInside n (consumeDoubleCharToken l double single loc) := by
  have hpeek := (inside_lexerPeekChar (inside_consumeChar h)).1
  -- `!` alone is the error without a span
  have herror : LexResult.Inside n (.error ⟨some .illegalCharacter, none⟩) :=
    ⟨by decide, nofun, fun _ => Or.inr rfl⟩
  unfold consumeDoubleCharToken
  dsimp only
  split
  · rename_i hrun
    rw [hrun] at hpeek
    cases single with
    | some t => exact ⟨hloc, hpeek⟩
    | none => exact ⟨herror, hpeek⟩
  · rename_i hrun
    rw [hrun] at hpeek
    split
    · exact ⟨hloc, inside_consumeChar hpeek⟩
    · cases single with
      | some t => exact ⟨hloc, hpeek⟩
      | none => exact ⟨herror, hpeek⟩

/-! ### The lexer -/

/-- The loop of a call stays inside, whatever it skips. The induction is on its fuel. -/
theorem inside_lexerParseTokenLoop (fuel : Nat) {l : CharStream} (h : l.Inside n) :
    CallInside n (lexerParseTokenLoop fuel l) := by
  induction fuel generalizing l with
  | zero => exact ⟨Nat.zero_le n, h⟩
  | succ fuel ih =>
      obtain ⟨hpeek, hloc⟩ := inside_lexerPeekChar h
      unfold lexerParseTokenLoop
      split
      · rename_i hrun
        rw [hrun] at hpeek
        exact ⟨Nat.zero_le n, hpeek⟩
      · rename_i c loc l₁ hrun
        rw [hrun] at hpeek hloc
        have hloc : loc.index.toNat ≤ n := hloc c loc rfl
        -- every branch starts at the character that was peeked, or comes back to the loop behind it
        have hconsume := inside_consumeChar hpeek
        split
        · exact ⟨hloc, hconsume⟩
        · exact inside_consumeDoubleCharToken hpeek hloc
        · split
          · have hpeek' := (inside_lexerPeekChar hconsume).1
            dsimp only
            split
            · rename_i hrun'
              rw [hrun'] at hpeek'
              exact ⟨hloc, hpeek'⟩
            · rename_i hrun'
              rw [hrun'] at hpeek'
              split
              · exact ih (inside_consumeComment (inside_consumeChar hpeek'))
              · exact ⟨hloc, hpeek'⟩
          · split
            · exact ih (inside_consumeSpacesLoop _ hpeek)
            · split
              · exact inside_consumeString hpeek
              · split
                · exact inside_consumeNumber hpeek
                · split
                  · exact inside_consumeIdentifier hpeek
                  · exact ih hconsume

/-- All results have their places inside. -/
theorem inside_lexResults (fuel : Nat) {l : CharStream} (h : l.Inside n) :
    ∀ r ∈ lexResults fuel ⟨l, []⟩, LexResult.Inside n r := by
  induction fuel generalizing l with
  | zero =>
      intro r hr
      cases hr
  | succ fuel ih =>
      obtain ⟨hresult, hrest⟩ := inside_lexerParseTokenLoop (l.remaining + 1) h
      -- no token was peeked, so the next call reads the stream
      have hnext : lexerNext ⟨l, []⟩ = ((lexerParseToken l).1, ⟨(lexerParseToken l).2, []⟩) := rfl
      unfold lexResults
      rw [hnext]
      intro r hr
      rcases hcall : (lexerParseToken l).1 with e | t
      · rw [hcall] at hr
        rcases List.mem_cons.mp hr with rfl | hr
        · exact hcall ▸ hresult
        · exact ih hrest r hr
      · rw [hcall] at hr
        dsimp only at hr
        split at hr
        · cases hr
        · rcases List.mem_cons.mp hr with rfl | hr
          · exact hcall ▸ hresult
          · exact ih hrest r hr

/-- Every token and every error of a source starts in it, but the error of a lone `!` has no
span. -/
theorem inside_resultsOf (source : Source) :
    ∀ r ∈ resultsOf source, LexResult.Inside source.val.length r := by
  refine inside_lexResults _ ⟨rfl, fun i hi => ?_, Nat.zero_le _⟩
  cases hi
  exact ⟨Nat.le_refl 0, Nat.zero_le _⟩

/-- The place of a result of the source, and that of its end, is in the source. -/
theorem Stands.inside {source : Source} {s : Span} (h : Stands source s) :
    s.Inside source.val.length := by
  rcases h with rfl | ⟨e | t, hmem, hs⟩
  · exact Nat.zero_le _
  · exact (inside_resultsOf source _ hmem).2.1 s hs
  · cases hs
    exact inside_resultsOf source _ hmem

end Nucleus.Proofs
