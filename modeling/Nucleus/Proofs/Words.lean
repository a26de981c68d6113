import Mathlib.Order.Monotone.Basic
import Nucleus.Proofs.Spelling

/-!
# `Nucleus.Proofs.Words`: the call that reads a word

Between two calls of `nulang__lexer_next` the lexer stands outside strings and comments, so
that what it reads next is told by the characters to come alone (`Begins`). Hence no call skips
the first character of a word or has it inside its token, and the call that reads it reads
exactly the word (`readBy_word`).

With `Nucleus.Proofs.Spelling` this says when a word is classified by its spelling
(`lexer_word_iff`).
-/

set_option autoImplicit false

namespace Nucleus.Proofs

open Nucleus.Vm
open Nucleus.Lang
open Nucleus.Spec

/-- A character of a text in two parts is in one of them. -/
theorem append_eq_append_cons {α : Type} {s t a b : List α} {c : α} (h : s ++ t = a ++ c :: b) :
    (∃ v, s = a ++ c :: v ∧ b = v ++ t) ∨ ∃ v, a = s ++ v ∧ t = v ++ c :: b := by
  rcases List.append_eq_append_iff.mp h with ⟨v, ha, ht⟩ | ⟨v, hs, ht⟩
  · exact Or.inr ⟨v, ha, ht⟩
  · cases v with
    | nil => exact Or.inr ⟨[], by simpa using hs.symm, by simpa using ht.symm⟩
    | cons d v =>
        rw [List.cons_append, List.cons.injEq] at ht
        obtain ⟨rfl, rfl⟩ := ht
        exact Or.inl ⟨v, hs, rfl⟩

/-! ### Modes of skipped characters and items -/

/-- Behind the characters that lead to the mode `m`, the characters `s` are read from code on. -/
def Begins (m : Mode) (s : List Char) : Prop := ∀ c ∈ s.head?, m.step c = codeStep c

/-- From code everything is read from code on. -/
theorem begins_code (s : List Char) : Begins .code s := fun _ _ => rfl

/-- The mode behind some characters is that behind them from code on. -/
theorem Begins.mode {m : Mode} {s t : List Char} (h : Begins m (s ++ t)) (hs : s ≠ []) :
    modeAfter m s = modeAfter .code s := by
  cases s with
  | nil => exact absurd rfl hs
  | cons c s => rw [modeAfter_cons, modeAfter_cons, h c rfl, begins_code (c :: s) c rfl]

/-- Characters that open neither a string nor a comment. -/
def Plain (s : List Char) : Prop := ∀ c ∈ s, c ≠ '\'' ∧ c ≠ '-'

/-- A plain character leaves the code where it is. -/
theorem codeStep_plain {c : Char} (hq : c ≠ '\'') (hd : c ≠ '-') : codeStep c = .code := by
  rw [codeStep, if_neg hq, if_neg hd]

/-- Plain characters stay in code. -/
theorem Plain.mode {s : List Char} (h : Plain s) : modeAfter .code s = .code := by
  induction s with
  | nil => rfl
  | cons c s ih =>
      have hc : codeStep c = .code := codeStep_plain (h c (by simp)).1 (h c (by simp)).2
      rw [modeAfter_cons, begins_code (c :: s) c rfl, hc]
      exact ih fun d hd => h d (List.mem_cons_of_mem _ hd)

/-- Inside a string, what is no quote stays inside. -/
theorem modeAfter_string {s : List Char} (h : '\'' ∉ s) : modeAfter .string s = .string := by
  induction s with
  | nil => rfl
  | cons c s ih =>
      rw [List.mem_cons, not_or] at h
      rw [modeAfter_cons, Mode.step, if_neg (Ne.symm h.1)]
      exact ih h.2

/-- Inside a comment, what is no newline stays inside. -/
theorem modeAfter_comment {s : List Char} (h : '\n' ∉ s) : modeAfter .comment s = .comment := by
  induction s with
  | nil => rfl
  | cons c s ih =>
      rw [List.mem_cons, not_or] at h
      rw [modeAfter_cons, Mode.step, if_neg (Ne.symm h.1)]
      exact ih h.2

/-- The characters of a word are plain. -/
theorem plain_identifier {s : List Char} (h : ∀ c ∈ s, identifierChar c = true) : Plain s := by
  intro c hc
  have hident := h c hc
  constructor
  · rintro rfl
    exact absurd hident (by decide)
  · rintro rfl
    exact absurd hident (by decide)

/-- The characters of a numeral are plain. -/
theorem plain_numeral {s t : List Char} (h : numeralPrefix false (s ++ t) = s) : Plain s := by
  intro c hc
  rw [← h] at hc
  rcases numeral_of_mem_numeralPrefix hc with hnum | rfl
  · constructor
    · rintro rfl
      exact absurd hnum (by decide)
    · rintro rfl
      exact absurd hnum (by decide)
  · exact ⟨by decide, by decide⟩

/-- The characters of the other tokens are plain. -/
theorem plain_of_singleCharType {c : Char} {t : TokenType} (h : singleCharType c = some t) :
    Plain [c] := by
  have htable := of_singleChars (P := fun e => e.1 ≠ '\'' ∧ e.1 ≠ '-') (by decide) h
  simpa [Plain] using htable

/-- The characters of an operator are plain. -/
theorem plain_of_doubleCharType {c : Char} {d : TokenType} {o : Option TokenType}
    (h : doubleCharType c = some (d, o)) : Plain [c] ∧ Plain [c, '='] := by
  have htable := of_doubleChars (P := fun e => e.1 ≠ '\'' ∧ e.1 ≠ '-') (by decide) h
  simpa [Plain] using htable

/-- A space leaves the code where it is. -/
theorem plain_of_isSpace {c : Char} (h : isSpace c = true) : codeStep c = .code := by
  apply codeStep_plain
  · rintro rfl
    exact absurd h (by decide)
  · rintro rfl
    exact absurd h (by decide)

/-- What a call skips leads back to code, but for a comment at the end of the source. -/
theorem Skips.mode {s rest : List Char} (h : Skips s rest) (hne : rest ≠ []) :
    modeAfter .code s = .code := by
  induction h with
  | nil => rfl
  | @space c s rest hc _ ih =>
      rw [modeAfter_cons, begins_code (c :: s) c rfl, plain_of_isSpace hc]
      exact ih hne
  | @comment body s rest hbody _ ih =>
      rw [modeAfter_cons, modeAfter_cons, modeAfter_append]
      show modeAfter (modeAfter .comment body) ('\n' :: s) = .code
      rw [modeAfter_comment hbody, modeAfter_cons]
      exact ih hne
  | lastComment => exact absurd rfl hne
  | @nothing c s rest hc _ ih =>
      obtain ⟨-, -, hdash, hquote, -, -⟩ := hc
      rw [modeAfter_cons, begins_code (c :: s) c rfl, codeStep_plain hquote hdash]
      exact ih hne

/-- A character of a comment has the comment open before it, but for the two dashes. -/
theorem commentPrefix {body a b : List Char} {c : Char} (hbody : '\n' ∉ body)
    (h : '-' :: '-' :: body = a ++ c :: b) (hne : c ≠ '-') : modeAfter .code a = .comment := by
  -- the character is neither of the two dashes
  match a, h with
  | [], h => exact absurd (List.cons.inj h).1.symm hne
  | [_], h => exact absurd (List.cons.inj (List.cons.inj h).2).1.symm hne
  | _ :: _ :: a, h =>
      simp only [List.cons_append, List.cons.injEq] at h
      obtain ⟨rfl, rfl, rfl⟩ := h
      rw [List.mem_append, not_or] at hbody
      exact modeAfter_comment hbody.1

/-- A character of a commented line and of what follows it: the comment is open before it, or it
is behind the comment. -/
theorem comment_line {body s a b : List Char} {c : Char} (hbody : '\n' ∉ body)
    (h : '-' :: '-' :: (body ++ '\n' :: s) = a ++ c :: b) (hdash : c ≠ '-') (hline : c ≠ '\n') :
    modeAfter .code a = .comment ∨
      ∃ t, s = t ++ c :: b ∧ modeAfter .code a = modeAfter .code t := by
  have happend : ('-' :: '-' :: body) ++ '\n' :: s = a ++ c :: b := h
  rcases append_eq_append_cons happend with ⟨v, hcomment, -⟩ | ⟨t, rfl, ht⟩
  · exact Or.inl (commentPrefix hbody hcomment hdash)
  · cases t with
    | nil => exact absurd (List.cons.inj ht).1.symm hline
    | cons e t =>
        -- the newline leads back to code
        rw [List.cons_append, List.cons.injEq] at ht
        obtain ⟨rfl, ht⟩ := ht
        refine Or.inr ⟨t, ht, ?_⟩
        rw [modeAfter_append]
        show modeAfter (modeAfter .comment body) ('\n' :: t) = modeAfter .code t
        rw [modeAfter_comment hbody, modeAfter_cons]
        rfl

/-- A digit is an identifier character. -/
theorem identifierChar_of_numericChar {c : Char} (h : numericChar c = true) :
    identifierChar c = true := by
  rw [identifierChar, h]
  simp

/-- No identifier character begins or ends a comment. -/
theorem ne_of_identifierChar {c : Char} (hc : identifierChar c = true) : c ≠ '-' ∧ c ≠ '\n' := by
  constructor
  · rintro rfl
    exact absurd hc (by decide)
  · rintro rfl
    exact absurd hc (by decide)

/-- An identifier character that a call skips is in a comment. -/
theorem Skips.in_comment {s rest : List Char} (h : Skips s rest) :
    ∀ {a b : List Char} {c : Char}, s = a ++ c :: b → identifierChar c = true →
      modeAfter .code a = .comment := by
  -- outside a comment the first skipped character is no identifier character
  induction h with
  | nil =>
      intro a b c hs hc
      simp at hs
  | @space d s rest hd _ ih =>
      intro a b c hs hc
      cases a with
      | nil =>
          obtain ⟨rfl, rfl⟩ := List.cons.inj hs
          simp only [isSpace, decide_eq_true_eq] at hd
          rw [← identifierChar_readChar, hd] at hc
          exact absurd hc (by decide)
      | cons e a =>
          rw [List.cons_append, List.cons.injEq] at hs
          obtain ⟨rfl, hs⟩ := hs
          rw [modeAfter_cons, begins_code (d :: a) d rfl, plain_of_isSpace hd]
          exact ih hs hc
  | comment hbody _ ih =>
      intro a b c hs hc
      have hne : c ≠ '-' ∧ c ≠ '\n' := ne_of_identifierChar hc
      rcases comment_line hbody hs hne.1 hne.2 with hcomment | ⟨t, ht, hmode⟩
      · exact hcomment
      · rw [hmode]
        exact ih ht hc
  | lastComment hbody =>
      intro a b c hs hc
      exact commentPrefix hbody hs (ne_of_identifierChar hc).1
  | @nothing d s rest hd _ ih =>
      intro a b c hs hc
      obtain ⟨-, -, hdash, hquote, -, hident⟩ := hd
      cases a with
      | nil =>
          obtain ⟨rfl, rfl⟩ := List.cons.inj hs
          rw [hident] at hc
          cases hc
      | cons e a =>
          rw [List.cons_append, List.cons.injEq] at hs
          obtain ⟨rfl, hs⟩ := hs
          rw [modeAfter_cons, begins_code (d :: a) d rfl, codeStep_plain hquote hdash]
          exact ih hs hc

/-- Behind an item what is to come is read from code on. -/
theorem Item.begins {pre used rest : List Char} {r : LexResult} (h : Item pre used rest r)
    (hne : rest ≠ []) : Begins (modeAfter .code used) rest := by
  have hplain : ∀ {s : List Char}, Plain s → Begins (modeAfter .code s) rest := by
    intro s hs
    rw [hs.mode]
    exact begins_code rest
  cases h with
  | single hc => exact hplain (plain_of_singleCharType hc)
  | double hc => exact hplain (plain_of_doubleCharType hc).2
  | half hc _ => exact hplain (plain_of_doubleCharType hc).1
  | bang hc _ => exact hplain (plain_of_doubleCharType hc).1
  | sub hhead =>
      -- the dash opens no comment, for no other dash follows
      intro c hc
      have hdash : c ≠ '-' := by
        rintro rfl
        exact hhead (Option.mem_def.mp hc)
      show (if c = '-' then Mode.comment else codeStep c) = codeStep c
      rw [if_neg hdash]
  | @string body _ hbody =>
      rw [modeAfter_cons, modeAfter_append]
      show Begins (modeAfter (modeAfter .string body) ['\'']) rest
      rw [modeAfter_string hbody]
      exact begins_code rest
  | openString => exact absurd rfl hne
  | number _ hpre _ => exact hplain (plain_numeral hpre)
  | badNumber _ hpre => exact hplain (plain_numeral hpre)
  | word _ hall _ => exact hplain (plain_identifier hall)

/-! ### Where the first character of a word stands -/

/-- A character that a word starts with. -/
def StartsWord (c : Char) : Prop := identifierChar c = true ∧ numericChar c = false

/-- A string that is open has its quote before each character but the first. -/
theorem stringPrefix {body a b : List Char} {c : Char} (hbody : '\'' ∉ body) (ha : a ≠ [])
    (h : '\'' :: body = a ++ c :: b) : modeAfter .code a = .string := by
  cases a with
  | nil => exact absurd rfl ha
  | cons q a =>
      rw [List.cons_append, List.cons.injEq] at h
      obtain ⟨rfl, rfl⟩ := h
      rw [List.mem_append, not_or] at hbody
      exact modeAfter_string hbody.1

/-- A character that is in no token but a string and a word. -/
structure Wordlike (c : Char) : Prop where
  equals : c ≠ '='
  quote : c ≠ '\''
  dot : c ≠ '.'
  digit : numericChar c = false

/-- What starts a word is part of one. -/
theorem StartsWord.wordlike {c : Char} (h : StartsWord c) : Wordlike c := by
  obtain ⟨hident, hnum⟩ := h
  refine ⟨?_, ?_, ?_, hnum⟩
  all_goals
    rintro rfl
    exact absurd hident (by decide)

/-- A token of one character has nothing behind its first character. -/
theorem singleton_ne_append {a b : List Char} {c d : Char} (ha : a ≠ []) : [d] ≠ a ++ c :: b := by
  intro heq
  have hlen := congrArg List.length heq
  have hpos := List.length_pos_iff.mpr ha
  simp only [List.length_append, List.length_cons, List.length_nil] at hlen
  omega

/-- A token of two characters has its second one there. -/
theorem pair_eq_append {a b : List Char} {c d e : Char} (ha : a ≠ []) (h : [d, e] = a ++ c :: b) :
    c = e := by
  match a, h with
  | [], _ => exact absurd rfl ha
  | [_], h => exact (List.cons.inj (List.cons.inj h).2).1.symm
  | _ :: _ :: _, h => simp at h

/-- Inside an item such a character is in a string, or it is one of the later characters of a
word. -/
theorem Item.inside {pre used rest a b : List Char} {r : LexResult} {c : Char}
    (h : Item pre used rest r) (hused : used = a ++ c :: b) (ha : a ≠ []) (hc : Wordlike c) :
    modeAfter .code a = .string ∨
      identifierChar c = true ∧ ∃ d ∈ a.getLast?, identifierChar d = true := by
  have hone : ∀ {d : Char}, [d] ≠ a ++ c :: b := singleton_ne_append ha
  -- a numeral has digits and dots only
  have hnumeral : ∀ {s : List Char}, s = a ++ c :: b → numeralPrefix false (s ++ rest) = s →
      False := by
    intro s hs hpre
    have hmem : c ∈ numeralPrefix false (s ++ rest) := by
      rw [hpre, hs]
      simp
    rcases numeral_of_mem_numeralPrefix hmem with hdigit | hdot
    · rw [hc.digit] at hdigit
      cases hdigit
    · exact hc.dot hdot
  cases h with
  | single => exact absurd hused hone
  | double => exact absurd (pair_eq_append ha hused) hc.equals
  | half => exact absurd hused hone
  | bang => exact absurd hused hone
  | sub => exact absurd hused hone
  | @string body _ hbody =>
      have happend : ('\'' :: body) ++ ['\''] = a ++ c :: b := hused
      rcases append_eq_append_cons happend with ⟨v, hopen, -⟩ | ⟨v, -, hclose⟩
      · exact Or.inl (stringPrefix hbody ha hopen)
      · -- the character is not the closing quote
        have hmem : c ∈ ['\''] := by
          rw [hclose]
          simp
        exact absurd (List.mem_singleton.mp hmem) hc.quote
  | openString hbody => exact Or.inl (stringPrefix hbody ha hused)
  | number _ hpre _ => exact absurd hpre fun hpre => hnumeral hused hpre
  | badNumber _ hpre => exact absurd hpre fun hpre => hnumeral hused hpre
  | word _ hall _ =>
      have hmem : ∀ d ∈ a ++ c :: b, identifierChar d = true := by
        rw [← hused]
        exact hall
      exact Or.inr ⟨hmem c (by simp), a.getLast ha, List.getLast?_eq_some_getLast ha,
        hmem _ (List.mem_append_left _ (List.getLast_mem ha))⟩

/-- The token of a word between `pre` and `rest`. -/
def wordAt (pre w rest : List Char) : Token :=
  ⟨(wordToken (w ++ rest) w.length).1, ⟨locationAfter pre, locationAfter (pre ++ w.dropLast)⟩,
    (wordToken (w ++ rest) w.length).2⟩

/-- An item whose first character starts a word is a maximal run of identifier characters. -/
theorem Item.first {pre used rest : List Char} {r : LexResult} {c : Char}
    (h : Item pre used rest r) (hfirst : used.head? = some c) (hc : StartsWord c) :
    (∀ d ∈ used, identifierChar d = true) ∧ (∀ d ∈ rest.head?, identifierChar d = false) ∧
      r = .ok (wordAt pre used rest) := by
  obtain ⟨hident, hnum⟩ := hc
  -- no other item starts with a letter
  cases h with
  | single hsingle =>
      cases hfirst
      rw [identifierChar_single hsingle] at hident
      cases hident
  | double hdouble =>
      cases hfirst
      rw [identifierChar_double hdouble] at hident
      cases hident
  | half hdouble _ =>
      cases hfirst
      rw [identifierChar_double hdouble] at hident
      cases hident
  | bang hdouble _ =>
      cases hfirst
      rw [identifierChar_double hdouble] at hident
      cases hident
  | sub =>
      cases hfirst
      exact absurd hident (by decide)
  | string =>
      cases hfirst
      exact absurd hident (by decide)
  | openString =>
      cases hfirst
      exact absurd hident (by decide)
  | number hdigit _ _ =>
      cases hfirst
      rw [hnum] at hdigit
      cases hdigit
  | badNumber hdigit _ =>
      cases hfirst
      rw [hnum] at hdigit
      cases hdigit
  | word _ hall hhead => exact ⟨hall, hhead, rfl⟩

/-- A run of identifier characters is maximal in one way. -/
theorem run_unique {u v s t : List Char} (h : u ++ s = v ++ t)
    (hu : ∀ c ∈ u, identifierChar c = true) (hv : ∀ c ∈ v, identifierChar c = true)
    (hs : ∀ c ∈ s.head?, identifierChar c = false)
    (ht : ∀ c ∈ t.head?, identifierChar c = false) : u = v ∧ s = t := by
  -- two runs that end in front of other characters end at the same place
  induction u generalizing v with
  | nil =>
      cases v with
      | nil => exact ⟨rfl, h⟩
      | cons d v =>
          have hd : identifierChar d = false := hs d (by rw [show s = d :: v ++ t from h]; rfl)
          rw [hv d (by simp)] at hd
          cases hd
  | cons c u ih =>
      cases v with
      | nil =>
          have hd : identifierChar c = false := ht c (by rw [← show c :: u ++ s = t from h]; rfl)
          rw [hu c (by simp)] at hd
          cases hd
      | cons d v =>
          rw [List.cons_append, List.cons_append, List.cons.injEq] at h
          obtain ⟨rfl, h⟩ := h
          obtain ⟨rfl, rfl⟩ := ih h (fun e he => hu e (List.mem_cons_of_mem _ he))
            (fun e he => hv e (List.mem_cons_of_mem _ he))
          exact ⟨rfl, rfl⟩

/-! ### The call that reads a word -/

/-- A lexer with an empty queue whose stream has consumed `done`. -/
def StandsAt (lexer : Lexer) (done todo : List Char) : Prop :=
  lexer.peeks = [] ∧ Reading lexer.chars done todo

/-- A lexer that stands behind some characters has consumed as many. -/
theorem StandsAt.consumed {lexer : Lexer} {done todo : List Char} (h : StandsAt lexer done todo) :
    consumed lexer = done.length := by
  unfold Nucleus.Spec.consumed
  rw [h.2.remaining_eq, h.2.text, List.length_append, Nat.add_sub_cancel]

/-- A new lexer stands in front of the source. -/
theorem standsAt_lexerInit (source : Source) : StandsAt (lexerInit source) [] source.val :=
  ⟨rfl, reading_streamInit source⟩

/-- A call of `nulang__lexer_next` with an empty queue. -/
theorem StandsAt.reads {lexer : Lexer} {done todo : List Char} (h : StandsAt lexer done todo) :
    CallReads done todo (lexerNext lexer).1 (lexerNext lexer).2.chars ∧
      (lexerNext lexer).2.peeks = [] := by
  obtain ⟨chars, peeks⟩ := lexer
  obtain ⟨rfl, hread⟩ := h
  obtain ⟨r, chars', hcall, hres⟩ := lexerParseToken_reads hread
  rw [lexerNext_empty hcall]
  exact ⟨hres, rfl⟩

/-- The next call starts where the lexer stands. -/
theorem StandsAt.next {lexer : Lexer} {done todo : List Char} (h : StandsAt lexer done todo) :
    CallResult done todo (lexerNext lexer).1 (lexerNext lexer).2.chars ∧
      (lexerNext lexer).2.peeks = [] := ⟨h.reads.1.result, h.reads.2⟩

/-- The mode behind skipped characters and a part of the item behind them. -/
theorem mode_of_item {done s t u : List Char}
    (hbegin : Begins (modeAfter .code done) (s ++ (t ++ u)))
    (hskip : Skips s (t ++ u)) (ht : t ≠ []) :
    modeAfter .code (done ++ (s ++ t)) = modeAfter .code t := by
  rw [← List.append_assoc] at hbegin
  have hne : t ++ u ≠ [] := by simp [ht]
  rw [modeAfter_append, hbegin.mode (by simp [ht]), modeAfter_append, Skips.mode hskip hne]

/-- A call that reads an item where `pre` ends. -/
def ReadsAt (pre todo : List Char) (r : LexResult) (l : CharStream) : Prop :=
  ∃ used rest, todo = used ++ rest ∧ Item pre used rest r ∧ NumberOf pre used rest r ∧
    Reading l (pre ++ used) rest

/-- A call that has the character `c` behind `mid` inside its item. -/
def ReadsAcross (done mid : List Char) (c : Char) (tail : List Char) (r : LexResult) : Prop :=
  ∃ s v w rest, v ≠ [] ∧ mid = s ++ v ∧ tail = w ++ rest ∧ Skips s (v ++ c :: tail) ∧
    Item (done ++ s) (v ++ c :: w) rest r

/-- A call that reads an item before the end of `mid`. -/
def ReadsBefore (done mid todo : List Char) (r : LexResult) (l : CharStream) : Prop :=
  ∃ s used mid', mid = s ++ (used ++ mid') ∧ Skips s (used ++ (mid' ++ todo)) ∧
    Item (done ++ s) used (mid' ++ todo) r ∧ Reading l (done ++ s ++ used) (mid' ++ todo)

/-- A call before an identifier character outside strings and comments: it does not skip it. -/
theorem call_before {done mid tail : List Char} {c : Char} {r : LexResult} {l : CharStream}
    (hcall : CallReads done (mid ++ c :: tail) r l)
    (hbegin : Begins (modeAfter .code done) (mid ++ c :: tail)) (hc : identifierChar c = true)
    (hout : (modeAfter .code (done ++ mid)).Outside) :
    ReadsAt (done ++ mid) (c :: tail) r l ∨ ReadsAcross done mid c tail r ∨
      ReadsBefore done mid (c :: tail) r l := by
  -- a character of a word is skipped in a comment only, and here is none
  have hskipped : ∀ {s rest t : List Char}, Skips s rest → s = mid ++ c :: t → False := by
    intro s rest t hskip hs
    have hcomment := Skips.in_comment hskip hs hc
    cases mid with
    | nil => cases hcomment
    | cons d mid =>
        rw [modeAfter_append, hbegin.mode (List.cons_ne_nil d mid)] at hout
        exact hout.2 hcomment
  rcases hcall with ⟨hskip, -, -⟩ | ⟨s, used, rest, hsplit, hskip, hitem, hnumber, hread⟩
  · exact absurd rfl (hskipped hskip)
  · rw [List.append_assoc] at hsplit
    rcases append_eq_append_cons hsplit.symm with ⟨v, hs, -⟩ | ⟨v, rfl, hv⟩
    · exact absurd hs (hskipped hskip)
    · -- the item begins at the character, goes over it, or ends in front of it
      rcases append_eq_append_cons hv with ⟨w, rfl, rfl⟩ | ⟨u, rfl, rfl⟩
      · by_cases hne : v = []
        · subst hne
          rw [List.append_nil]
          exact Or.inl ⟨c :: w, rest, rfl, hitem, hnumber, hread⟩
        · refine Or.inr (Or.inl ⟨s, v, w, rest, hne, rfl, rfl, ?_, hitem⟩)
          rwa [List.append_assoc] at hskip
      · exact Or.inr (Or.inr ⟨s, used, u, rfl, hskip, hitem, hread⟩)

/-- From a call on, some call reads an item where `pre` ends, if each call between does so or stops
before it and keeps `P`. -/
theorem reads_at {source : Source} {pre todo : List Char} {P : List Char → List Char → Prop}
    (hstep : ∀ {done mid : List Char} {r : LexResult} {l : CharStream}, done ++ mid = pre →
      CallReads done (mid ++ todo) r l → P done mid →
        ReadsAt pre todo r l ∨ ∃ done' mid', mid'.length < mid.length ∧ done' ++ mid' = pre ∧
          Reading l done' (mid' ++ todo) ∧ P done' mid') :
    ∀ (n k : Nat) {done mid : List Char}, mid.length < n → done ++ mid = pre →
      StandsAt (lexerAfter source k) done (mid ++ todo) → P done mid →
      ∃ j used rest r, consumed (lexerAfter source j) ≤ pre.length ∧
        consumed (lexerAfter source (j + 1)) = pre.length + used.length ∧
        (lexerNext (lexerAfter source j)).1 = r ∧ todo = used ++ rest ∧ Item pre used rest r ∧
        NumberOf pre used rest r := by
  -- the induction is on the characters before the item: a call that stops before it reads some
  intro n
  induction n with
  | zero =>
      intro k done mid hlt
      omega
  | succ n ih =>
      intro k done mid hlt hpre hat hP
      obtain ⟨hcall, hpeeks⟩ := hat.reads
      rcases hstep hpre hcall hP with
        ⟨used, rest, hsplit, hitem, hnumber, hread⟩ | ⟨done', mid', hshort, hpre', hread, hP'⟩
      · have hat' : StandsAt (lexerAfter source (k + 1)) (pre ++ used) rest := ⟨hpeeks, hread⟩
        refine ⟨k, used, rest, _, ?_, ?_, rfl, hsplit, hitem, hnumber⟩
        · rw [hat.consumed, ← hpre, List.length_append]
          exact Nat.le_add_right _ _
        · rw [hat'.consumed, List.length_append]
      · exact ih (k + 1) (by omega) hpre' ⟨hpeeks, hread⟩ hP'

/-- A call before a word reads the word or stops before it. -/
theorem call_before_word {done mid tail : List Char} {c : Char} {r : LexResult} {l : CharStream}
    (hcall : CallReads done (mid ++ c :: tail) r l)
    (hbegin : Begins (modeAfter .code done) (mid ++ c :: tail)) (hc : StartsWord c)
    (hout : (modeAfter .code (done ++ mid)).Outside)
    (hleft : ∀ d ∈ (done ++ mid).getLast?, identifierChar d = false) :
    ReadsAt (done ++ mid) (c :: tail) r l ∨ ∃ done' mid', mid'.length < mid.length ∧
      done' ++ mid' = done ++ mid ∧ Reading l done' (mid' ++ c :: tail) ∧
        Begins (modeAfter .code done') (mid' ++ c :: tail) := by
  rcases call_before hcall hbegin hc.1 hout with hat |
    ⟨s, v, w, rest, hv, rfl, rfl, hskip, hitem⟩ | ⟨s, used, mid', rfl, hskip, hitem, hread⟩
  · exact Or.inl hat
  · -- the character would be inside the item
    rcases Item.inside hitem rfl hv hc.wordlike with hstring | ⟨-, q, hq, hident⟩
    · rw [List.append_assoc] at hbegin
      rw [mode_of_item hbegin hskip hv] at hout
      exact absurd hstring hout.1
    · have hlast : (done ++ (s ++ v)).getLast? = v.getLast? := by
        rw [← List.append_assoc, List.getLast?_append_of_ne_nil _ hv]
      rw [hleft q (hlast ▸ hq)] at hident
      cases hident
  · refine Or.inr ⟨done ++ s ++ used, mid', ?_, by simp, hread, ?_⟩
    · have hpos := List.length_pos_iff.mpr hitem.used_ne_nil
      simp only [List.length_append]
      omega
    · rw [List.append_assoc, List.append_assoc] at hbegin
      rw [List.append_assoc, mode_of_item hbegin hskip hitem.used_ne_nil]
      exact Item.begins hitem (by simp)

/-- A word starts with a character that is no digit. -/
theorem WordAt.cons {source : Source} {pre w rest : List Char} (h : WordAt source pre w rest) :
    ∃ c w', w = c :: w' ∧ StartsWord c := by
  cases w with
  | nil => exact absurd rfl h.nonempty
  | cons c w => exact ⟨c, w, rfl, h.chars c (by simp), h.start c rfl⟩

/-- Some call reads exactly the word. -/
theorem reads_word {source : Source} {pre w rest : List Char} (h : WordAt source pre w rest) :
    ∃ j, consumed (lexerAfter source j) ≤ pre.length ∧
      consumed (lexerAfter source (j + 1)) = pre.length + w.length ∧
      (lexerNext (lexerAfter source j)).1 = .ok (wordAt pre w rest) := by
  obtain ⟨c, w', rfl, hc⟩ := WordAt.cons h
  have hat : StandsAt (lexerAfter source 0) [] (pre ++ (c :: w' ++ rest)) :=
    h.text ▸ standsAt_lexerInit source
  obtain ⟨j, used, rest', r, hle, hnext, hr, hsplit, hitem, -⟩ :=
    reads_at (P := fun done mid => Begins (modeAfter .code done) (mid ++ (c :: w' ++ rest)))
      (fun hpre hcall hbegin => by
        subst hpre
        exact call_before_word hcall hbegin hc h.outside h.left)
      _ 0 (Nat.lt_succ_self _) (List.nil_append pre) hat (begins_code _)
  have hhead : used.head? = some c := by
    cases used with
    | nil => exact absurd rfl hitem.used_ne_nil
    | cons d used => rw [← (List.cons.inj hsplit).1, List.head?_cons]
  obtain ⟨hall, hstop, htoken⟩ := Item.first hitem hhead hc
  -- the item at the word has the characters of the word
  obtain ⟨rfl, rfl⟩ := run_unique hsplit h.chars hall h.right hstop
  exact ⟨j, hle, hnext, hr.trans htoken⟩

/-- A call of the lexer goes on where the last one stopped. -/
theorem StandsAt.step {lexer : Lexer} {done todo : List Char} (h : StandsAt lexer done todo) :
    ∃ done' todo', StandsAt (lexerNext lexer).2 done' todo' ∧ done.length ≤ done'.length := by
  obtain ⟨hcall, hpeeks⟩ := h.next
  rcases hcall with ⟨-, -, hend⟩ | ⟨s, used, rest, -, -, -, hread⟩
  · exact ⟨_, [], ⟨hpeeks, .ended hend⟩, by simp⟩
  · exact ⟨_, rest, ⟨hpeeks, hread⟩, by simp⟩

/-- Between two calls the lexer stands somewhere in the source. -/
theorem standsAt_lexerAfter (source : Source) (k : Nat) :
    ∃ done todo, StandsAt (lexerAfter source k) done todo := by
  induction k with
  | zero => exact ⟨[], source.val, standsAt_lexerInit source⟩
  | succ k ih =>
      obtain ⟨done, todo, hat⟩ := ih
      obtain ⟨done', todo', hat', -⟩ := hat.step
      exact ⟨done', todo', hat'⟩

/-- No call gives characters back. -/
theorem consumed_mono (source : Source) : Monotone fun k => consumed (lexerAfter source k) := by
  refine monotone_nat_of_le_succ fun k => ?_
  obtain ⟨done, todo, hat⟩ := standsAt_lexerAfter source k
  obtain ⟨done', todo', hat', hle⟩ := hat.step
  have hnext : StandsAt (lexerAfter source (k + 1)) done' todo' := hat'
  rw [hat.consumed, hnext.consumed]
  exact hle

/-- One call reads the character at an offset. -/
theorem ReadBy.unique {source : Source} {i : Nat} {r r' : LexResult} (h : ReadBy source i r)
    (h' : ReadBy source i r') : r = r' := by
  obtain ⟨k, hle, hlt, rfl⟩ := h
  obtain ⟨k', hle', hlt', rfl⟩ := h'
  have hkk : k = k' := by
    rcases Nat.lt_trichotomy k k' with hk | hk | hk
    · have := consumed_mono source (Nat.succ_le_of_lt hk)
      simp only [Nat.succ_eq_add_one] at this
      omega
    · exact hk
    · have := consumed_mono source (Nat.succ_le_of_lt hk)
      simp only [Nat.succ_eq_add_one] at this
      omega
  rw [hkk]

/-- The call that reads the first character of a word gives the token of the word. -/
theorem readBy_word {source : Source} {pre w rest : List Char} (h : WordAt source pre w rest)
    (r : LexResult) : ReadBy source pre.length r ↔ r = .ok (wordAt pre w rest) := by
  obtain ⟨k, hle, hnext, hr⟩ := reads_word h
  have hpos := List.length_pos_iff.mpr h.nonempty
  have hread : ReadBy source pre.length (.ok (wordAt pre w rest)) := ⟨k, hle, by omega, hr⟩
  constructor
  · intro hr'
    exact ReadBy.unique hr' hread
  · rintro rfl
    exact hread

/-! ### Classification by spelling -/

/-- The characters of a word and behind it are characters of the source. -/
theorem WordAt.nul_not_mem {source : Source} {pre w rest : List Char}
    (h : WordAt source pre w rest) : '\x00' ∉ w ∧ '\x00' ∉ rest := by
  have hnul := source.property
  rw [h.text] at hnul
  simp only [List.mem_append, not_or] at hnul
  exact ⟨hnul.2.1, hnul.2.2⟩

/-- A word is classified by its spelling exactly when the comparison with `and` does not misread
it, and in two places it gets the same type unless it is a prefix of `and` that stands at the end
of the source in only one of them. -/
theorem lexer_word_iff {source source' : Source} {pre w rest pre' rest' : List Char}
    (h : WordAt source pre w rest) (h' : WordAt source' pre' w rest') :
    ∃ token token' : Token,
      (∀ r, ReadBy source pre.length r ↔ r = .ok token) ∧
        (∀ r, ReadBy source' pre'.length r ↔ r = .ok token') ∧
        ((token.type, token.value) = spelling w rest ↔ ¬ Misread w rest) ∧
        (token.type = token'.type ↔ (w ∈ andPrefixes → (rest = [] ↔ rest' = []))) := by
  obtain ⟨hw, hrest⟩ := WordAt.nul_not_mem h
  obtain ⟨-, hrest'⟩ := WordAt.nul_not_mem h'
  exact ⟨wordAt pre w rest, wordAt pre' w rest', readBy_word h, readBy_word h',
    wordToken_eq_spelling_iff hw hrest h.nonempty,
    wordToken_type_eq_iff hw hrest hrest' h.nonempty⟩

/-- A source in which the word `and` stands before another one. -/
def andSource : Source := ⟨"x and y".toList, by decide⟩

/-- A source that ends in the word `and`. -/
def andEndSource : Source := ⟨"x and".toList, by decide⟩

theorem wordAt_andSource : WordAt andSource "x ".toList "and".toList " y".toList where
  text := by decide
  nonempty := by decide
  chars := List.all_eq_true.mp (by decide)
  start := by
    rintro c ⟨⟩
    decide
  left := by
    rintro c ⟨⟩
    decide
  right := by
    rintro c ⟨⟩
    decide
  outside := by decide

theorem wordAt_andEndSource : WordAt andEndSource "x ".toList "and".toList [] where
  text := by decide
  nonempty := by decide
  chars := List.all_eq_true.mp (by decide)
  start := by
    rintro c ⟨⟩
    decide
  left := by
    rintro c ⟨⟩
    decide
  right := by
    rintro c ⟨⟩
  outside := by decide

theorem lexer_word_iff_andSource :
    ∃ token token' : Token,
      (∀ r, ReadBy andSource "x ".toList.length r ↔ r = .ok token) ∧
        (∀ r, ReadBy andEndSource "x ".toList.length r ↔ r = .ok token') ∧
        ((token.type, token.value) = spelling "and".toList " y".toList ↔
          ¬ Misread "and".toList " y".toList) ∧
        (token.type = token'.type ↔
          ("and".toList ∈ andPrefixes → (" y".toList = [] ↔ ([] : List Char) = []))) :=
  lexer_word_iff wordAt_andSource wordAt_andEndSource

/-- The lexer takes `and` for an identifier when something follows it. -/
theorem lexer_word_andSource :
    WordAt andSource "x ".toList "and".toList " y".toList ∧
      (spelling "and".toList " y".toList).1 = .tokenAnd ∧
      ∃ token token' : Token,
        ReadBy andSource 2 (.ok token) ∧ token.type = .tokenIdentifier ∧
          ReadBy andEndSource 2 (.ok token') ∧ token'.type = .tokenAnd := by
  refine ⟨wordAt_andSource, by decide, wordAt "x ".toList "and".toList " y".toList,
    wordAt "x ".toList "and".toList [], ⟨1, ?_⟩, ?_, ⟨1, ?_⟩, ?_⟩
  all_goals decide +kernel

end Nucleus.Proofs
