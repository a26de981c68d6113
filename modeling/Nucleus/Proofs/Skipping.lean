import Nucleus.Proofs.Lossless

/-!
# `Nucleus.Proofs.Skipping`: what a call leaves

The grammar says which characters a call of the lexer may skip. What it skips is determined by
the text: `unskipped` computes what is left (`Skips.unskipped`), since an item begins with a
character at which skipping stops (`Item.stops`). Hence a text that is known to be skippable in
front of an item is what a call skips, and the call goes on with the item (`results_behind`).

An item that begins with no word, number or string is determined by the text as well. It is the
longest symbol there (`Item.eq_symbol`).
-/

set_option autoImplicit false

namespace Nucleus.Proofs

open Nucleus.Lang
open Nucleus.Spec

/-! ### Skipping is a function of the text -/

instance : DecidablePred startsNothing := fun _ => inferInstanceAs (Decidable (_ ∧ _))

/-- What is left of a text when the lexer has skipped all that it can, in a comment or outside of
one. -/
def unskipped : Bool → List Char → List Char
  | _, [] => []
  | true, c :: rest => unskipped (c ≠ '\n') rest
  | false, c :: rest =>
      if isSpace c = true ∨ startsNothing c then unskipped false rest
      else if c = '-' ∧ rest.head? = some '-' then unskipped true rest
      else c :: rest

/-- A text at which skipping stops. -/
structure Stops (rest : List Char) : Prop where
  space : ∀ c ∈ rest.head?, isSpace c = false
  starts : ∀ c ∈ rest.head?, ¬ startsNothing c
  comment : ∀ tail, rest ≠ '-' :: '-' :: tail

/-- Nothing follows at the end. -/
theorem stops_nil : Stops [] :=
  ⟨fun _ hc => by simp at hc, fun _ hc => by simp at hc, fun _ => (List.cons_ne_nil _ _).symm⟩

/-- At the start of an item nothing is skipped. -/
theorem Stops.unskipped {rest : List Char} (h : Stops rest) : unskipped false rest = rest := by
  cases rest with
  | nil => rfl
  | cons c rest =>
      have hspace : isSpace c = false := h.space c rfl
      have hstarts : ¬ startsNothing c := h.starts c rfl
      have hcomment : ¬ (c = '-' ∧ rest.head? = some '-') := by
        rintro ⟨rfl, hhead⟩
        obtain ⟨tail, rfl⟩ := List.head?_eq_some_iff.mp hhead
        exact h.comment tail rfl
      rw [Proofs.unskipped, if_neg (by simp [hspace, hstarts]), if_neg hcomment]

/-- A comment goes to the end of its line. -/
theorem unskipped_line {body : List Char} (hbody : '\n' ∉ body) (rest : List Char) :
    unskipped true (body ++ '\n' :: rest) = unskipped false rest := by
  induction body with
  | nil => rfl
  | cons c body ih =>
      rw [List.mem_cons, not_or] at hbody
      rw [List.cons_append, unskipped, decide_eq_true (Ne.symm hbody.1)]
      exact ih hbody.2

/-- The last comment goes to the end of the source. -/
theorem unskipped_lastLine {body : List Char} (hbody : '\n' ∉ body) :
    unskipped true body = [] := by
  induction body with
  | nil => rfl
  | cons c body ih =>
      rw [List.mem_cons, not_or] at hbody
      rw [unskipped, decide_eq_true (Ne.symm hbody.1)]
      exact ih hbody.2

/-- Two dashes begin a comment. -/
theorem unskipped_comment (rest : List Char) :
    unskipped false ('-' :: '-' :: rest) = unskipped true rest := by
  have hdash : ¬ (isSpace '-' = true ∨ startsNothing '-') := by decide
  rw [unskipped, if_neg hdash, if_pos ⟨rfl, rfl⟩]
  rfl

/-- What a call skips is what it can skip: by induction on the skipped characters. -/
theorem Skips.unskipped {s rest : List Char} (h : Skips s rest) (hstop : Stops rest) :
    unskipped false (s ++ rest) = rest := by
  induction h with
  | nil => exact hstop.unskipped
  | space hc _ ih =>
      rw [List.cons_append, Proofs.unskipped, if_pos (Or.inl hc)]
      exact ih hstop
  | @comment body s rest hbody _ ih =>
      show Proofs.unskipped false ('-' :: '-' :: ((body ++ '\n' :: s) ++ rest)) = rest
      rw [unskipped_comment, List.append_assoc, List.cons_append, unskipped_line hbody]
      exact ih hstop
  | lastComment hbody =>
      rw [List.append_nil, unskipped_comment]
      exact unskipped_lastLine hbody
  | nothing hc _ ih =>
      rw [List.cons_append, Proofs.unskipped, if_pos (Or.inr hc)]
      exact ih hstop

/-- Two ways to skip the beginning of a text are one. -/
theorem Skips.unique {s s' rest rest' : List Char} (h : Skips s rest) (h' : Skips s' rest')
    (hstop : Stops rest) (hstop' : Stops rest') (heq : s ++ rest = s' ++ rest') :
    s = s' ∧ rest = rest' := by
  have hrest : rest = rest' := by
    rw [← Skips.unskipped h hstop, heq, Skips.unskipped h' hstop']
  subst hrest
  exact ⟨List.append_cancel_right heq, rfl⟩

/-! ### Where skipping stops -/

/-- No item starts with a space. -/
theorem Item.not_space {pre used rest : List Char} {c : Char} {r : LexResult}
    (h : Item pre (c :: used) rest r) : isSpace c = false := by
  by_contra hne
  have hspace : c = '\n' ∨ c = ' ' := by
    rw [Bool.not_eq_false, isSpace, decide_eq_true_eq, readChar] at hne
    by_cases hc : c = '\n'
    · exact Or.inl hc
    · rw [if_neg hc] at hne
      exact Or.inr hne
  rcases hspace with rfl | rfl
  all_goals
    cases h with
    | single hc => cases hc
    | double hc => cases hc
    | half hc => cases hc
    | bang hc => cases hc
    | number hc => exact absurd hc (by decide)
    | badNumber hc => exact absurd hc (by decide)
    | word _ hall => exact absurd (hall _ List.mem_cons_self) (by decide)

/-- A dash is an item only in front of something else. -/
theorem Item.not_comment {pre used rest : List Char} {r : LexResult}
    (h : Item pre ('-' :: used) rest r) : (used ++ rest).head? ≠ some '-' := by
  cases h with
  | single hc => cases hc
  | double hc => cases hc
  | half hc => cases hc
  | bang hc => cases hc
  | sub hhead => exact hhead
  | number hc => exact absurd hc (by decide)
  | badNumber hc => exact absurd hc (by decide)
  | word _ hall => exact absurd (hall '-' List.mem_cons_self) (by decide)

/-- Skipping stops at an item. -/
theorem Item.stops {pre used rest : List Char} {r : LexResult} (h : Item pre used rest r) :
    Stops (used ++ rest) := by
  cases used with
  | nil => exact absurd rfl h.used_ne_nil
  | cons c used =>
      -- its first character is no space and starts something, and two dashes are no item
      refine ⟨?_, ?_, ?_⟩
      · intro d hd
        cases hd
        exact Item.not_space h
      · intro d hd
        cases hd
        exact Item.starts h
      · intro tail heq
        obtain ⟨rfl, htail⟩ := List.cons.inj heq
        exact Item.not_comment h (congrArg List.head? htail)

/-! ### The results behind skipped characters -/

section
variable {l : CharStream} {pre s rest : List Char}

/-- In front of a text that is no item the next result is that of an item behind the skipped
characters. -/
theorem results_behind (h : Reading l pre (s ++ rest)) (hskip : Skips s rest) (hstop : Stops rest)
    (hne : rest ≠ []) : ∃ r l' used tail, used ++ tail = rest ∧ Item (pre ++ s) used tail r ∧
      Reading l' (pre ++ s ++ used) tail ∧ streamResults l = r :: streamResults l' := by
  obtain ⟨r, l', hcall, hres⟩ := lexerParseToken_spec h
  rcases hres with ⟨hall, -, -⟩ | ⟨s', used, tail, hsplit, hskip', hitem, hread⟩
  · -- a call that skips everything would leave nothing
    have hend := Skips.unique hskip hall hstop stops_nil (List.append_nil _).symm
    exact absurd hend.2 hne
  · have hresults := streamResults_item h hcall hsplit hitem hread
    rw [List.append_assoc] at hsplit
    obtain ⟨rfl, rfl⟩ := Skips.unique hskip hskip' hstop (Item.stops hitem) hsplit
    exact ⟨r, l', used, tail, rfl, hitem, hread, hresults⟩

/-- A source whose rest can be skipped gives no more results. -/
theorem results_nothing (h : Reading l pre s) (hskip : Skips s []) : streamResults l = [] := by
  obtain ⟨r, l', hcall, hres⟩ := lexerParseToken_spec h
  rcases hres with ⟨-, rfl, -⟩ | ⟨s', used, tail, hsplit, hskip', hitem, -⟩
  · exact streamResults_end hcall
  · have hsplit' : s ++ [] = s' ++ (used ++ tail) := by
      rw [List.append_nil, hsplit, List.append_assoc]
    obtain ⟨-, hnil⟩ := Skips.unique hskip hskip' stops_nil (Item.stops hitem) hsplit'
    exact absurd (List.append_eq_nil_iff.mp hnil.symm).1 hitem.used_ne_nil

end

/-! ### Symbols -/

/-- The characters of the two kinds of tokens are different. -/
theorem single_of_double {c : Char} {d : TokenType} {o : Option TokenType}
    (h : doubleCharType c = some (d, o)) : singleCharType c = none := by
  have htable := of_doubleChars (P := fun e => (singleCharType e.1).isNone) (by decide) h
  simpa using htable

/-- The item at `loc` that begins with `c`, if neither a word nor a number nor a string does: the
longest symbol in front of `tail`. -/
def symbol (loc : Location) (c : Char) (tail : List Char) : List Char × LexResult :=
  match singleCharType c, doubleCharType c with
  | some t, _ => ([c], .ok (Token.single t loc))
  | none, some (d, o) =>
      if tail.head? = some '=' then ([c, '='], .ok (Token.double d loc))
      else
        match o with
        | some t => ([c], .ok (Token.single t loc))
        | none => ([c], .error ⟨some .illegalCharacter, none⟩)
  | none, none => ([c], .ok (Token.single .tokenSub loc))

/-- A symbol is the longest one. -/
theorem Item.eq_symbol {pre used rest tail : List Char} {c : Char} {r : LexResult}
    (h : Item pre used rest r) (hsplit : used ++ rest = c :: tail)
    (hident : identifierChar c = false) (hquote : c ≠ '\'') :
    (used, r) = symbol (locationAfter pre) c tail := by
  have hdigit : numericChar c = false := numericChar_of_identifierChar hident
  cases h with
  | single hc =>
      obtain ⟨rfl, -⟩ := List.cons.inj hsplit
      rw [symbol, hc]
  | double hc =>
      obtain ⟨rfl, rfl⟩ := List.cons.inj hsplit
      rw [symbol, single_of_double hc, hc]
      exact (if_pos rfl).symm
  | half hc hhead =>
      obtain ⟨rfl, rfl⟩ := List.cons.inj hsplit
      rw [symbol, single_of_double hc, hc]
      exact (if_neg hhead).symm
  | bang hc hhead =>
      obtain ⟨rfl, rfl⟩ := List.cons.inj hsplit
      rw [symbol, single_of_double hc, hc]
      exact (if_neg hhead).symm
  | sub =>
      obtain ⟨rfl, -⟩ := List.cons.inj hsplit
      rfl
  | string => exact absurd (List.cons.inj hsplit).1.symm hquote
  | openString => exact absurd (List.cons.inj hsplit).1.symm hquote
  | number hc =>
      obtain ⟨rfl, -⟩ := List.cons.inj hsplit
      rw [hdigit] at hc
      cases hc
  | badNumber hc =>
      obtain ⟨rfl, -⟩ := List.cons.inj hsplit
      rw [hdigit] at hc
      cases hc
  | word _ hall =>
      obtain ⟨rfl, -⟩ := List.cons.inj hsplit
      rw [hall _ List.mem_cons_self] at hident
      cases hident

end Nucleus.Proofs
