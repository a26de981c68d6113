import Nucleus.Proofs.Words

/-!
# `Nucleus.Proofs.Lossless`: what lexing loses

When repeated calls of `nulang__lexer_next` come to the end of the source, the source should be
the lexemes of their tokens with white space and comments between them (`Lossless`). The
default branch of `nulang__lexer_parse_token` consumes a character that starts no token and goes
on. Hence the law holds exactly when no such character stands outside strings and comments, but
for tabs and carriage returns (`lexer_lossless_iff`).
-/

set_option autoImplicit false

namespace Nucleus.Proofs

open Nucleus.Lang
open Nucleus.Spec

/-! ### The specification -/

/-- Space, tab, carriage return or newline. -/
def IsWhite (c : Char) : Prop := c = ' ' ∨ c = '\t' ∨ c = '\r' ∨ c = '\n'

/-- White space and comments, before `rest`. -/
inductive Blank : List Char → List Char → Prop where
  | nil {rest : List Char} : Blank [] rest
  | white {c : Char} {s rest : List Char} : IsWhite c → Blank s rest → Blank (c :: s) rest
  | comment {body s rest : List Char} :
      '\n' ∉ body → Blank s rest → Blank ('-' :: '-' :: (body ++ '\n' :: s)) rest
  | lastComment {body : List Char} : '\n' ∉ body → Blank ('-' :: '-' :: body) []

/-- The calls of `nulang__lexer_next` return `tokens` and then the end, without an error. -/
inductive LexesTo : Lexer → List Token → Prop where
  | eof {lexer : Lexer} {token : Token} :
      (lexerNext lexer).1 = .ok token → token.type = .tokenEof → LexesTo lexer []
  | token {lexer : Lexer} {token : Token} {tokens : List Token} :
      (lexerNext lexer).1 = .ok token → token.type ≠ .tokenEof →
      LexesTo (lexerNext lexer).2 tokens → LexesTo lexer (token :: tokens)

/-- A string token denotes the characters between the quotes. -/
def Quotes (token : Token) (used : List Char) : Prop :=
  ∀ s, token.value = .literal (.literalString s) → used = '\'' :: (s.text ++ ['\''])

/-- The text behind `pre` is the lexemes of the tokens in their order, with white space and
comments before, between and behind them. -/
inductive Lossless : List Char → List Char → List Token → Prop where
  | nil {pre s : List Char} : Blank s [] → Lossless pre s []
  | cons {pre s used rest : List Char} {token : Token} {tokens : List Token} :
      Blank s (used ++ rest) → Item (pre ++ s) used rest (.ok token) → Quotes token used →
      Lossless (pre ++ (s ++ used)) rest tokens →
      Lossless pre (s ++ (used ++ rest)) (token :: tokens)

/-- A character that starts no token and is no white space. -/
def Stray (c : Char) : Prop := startsNothing c ∧ c ≠ '\t' ∧ c ≠ '\r'

/-- No such character stands outside strings and comments. -/
def NoStray (source : List Char) : Prop :=
  ∀ pre c rest, source = pre ++ c :: rest → (modeAfter .code pre).Outside → ¬ Stray c

/-! ### Characters that start nothing -/

/-- A stray character is no white space. -/
theorem Stray.not_white {c : Char} (h : Stray c) : ¬ IsWhite c := by
  obtain ⟨⟨-, -, -, -, hspace, -⟩, htab, hreturn⟩ := h
  rintro (rfl | rfl | rfl | rfl)
  · exact absurd hspace (by decide)
  · exact htab rfl
  · exact hreturn rfl
  · exact absurd hspace (by decide)

/-- What starts nothing is stray or white. -/
theorem isWhite_of_startsNothing {c : Char} (h : startsNothing c) (hstray : ¬ Stray c) :
    IsWhite c := by
  by_cases htab : c = '\t'
  · exact Or.inr (Or.inl htab)
  · by_cases hreturn : c = '\r'
    · exact Or.inr (Or.inr (Or.inl hreturn))
    · exact absurd ⟨h, htab, hreturn⟩ hstray

/-- A space is white space. -/
theorem isWhite_of_isSpace {c : Char} (h : isSpace c = true) : IsWhite c := by
  unfold isSpace readChar at h
  split at h
  · rename_i hc
    exact Or.inr (Or.inr (Or.inr hc))
  · exact Or.inl (by simpa using h)

/-- White space does not leave the code. -/
theorem IsWhite.mode {c : Char} (h : IsWhite c) : codeStep c = .code := by
  rcases h with rfl | rfl | rfl | rfl
  · rfl
  · rfl
  · rfl
  · rfl

/-- A digit is an identifier character. -/
theorem Stray.wordlike {c : Char} (h : Stray c) : Wordlike c := by
  obtain ⟨⟨hsingle, hdouble, -, hquote, -, hident⟩, -⟩ := h
  refine ⟨?_, hquote, ?_, numericChar_of_identifierChar hident⟩
  · rintro rfl
    cases hdouble
  · rintro rfl
    cases hsingle

/-- No item starts with such a character. -/
theorem Item.starts {pre used rest : List Char} {c : Char} {r : LexResult}
    (h : Item pre (c :: used) rest r) : ¬ startsNothing c := by
  rintro ⟨hsingle, hdouble, hdash, hquote, -, hident⟩
  have hdigit : numericChar c = false := numericChar_of_identifierChar hident
  cases h with
  | single hc => rw [hsingle] at hc; cases hc
  | double hc => rw [hdouble] at hc; cases hc
  | half hc => rw [hdouble] at hc; cases hc
  | bang hc => rw [hdouble] at hc; cases hc
  | sub => exact hdash rfl
  | string => exact hquote rfl
  | openString => exact hquote rfl
  | number hc => rw [hdigit] at hc; cases hc
  | badNumber hc => rw [hdigit] at hc; cases hc
  | word _ hall =>
      rw [hall c (by simp)] at hident
      cases hident

/-- The lexer skips what is blank. -/
theorem Blank.skips {s rest : List Char} (h : Blank s rest) : Skips s rest := by
  induction h with
  | nil => exact .nil
  | white hc _ ih =>
      rcases hc with rfl | rfl | rfl | rfl
      · exact .space (by decide) ih
      · exact .nothing (by simp only [startsNothing]; decide) ih
      · exact .nothing (by simp only [startsNothing]; decide) ih
      · exact .space (by decide) ih
  | comment hbody _ ih => exact .comment hbody ih
  | lastComment hbody => exact .lastComment hbody

/-- Only a comment lets a stray character into what is blank. -/
theorem Blank.in_comment {s rest : List Char} (h : Blank s rest) :
    ∀ {a b : List Char} {c : Char}, s = a ++ c :: b → Stray c → modeAfter .code a = .comment := by
  -- a stray character neither begins a comment nor ends one
  have hne : ∀ {c : Char}, Stray c → c ≠ '-' ∧ c ≠ '\n' := by
    intro c hc
    refine ⟨hc.1.2.2.1, ?_⟩
    rintro rfl
    exact hc.not_white (Or.inr (Or.inr (Or.inr rfl)))
  induction h with
  | nil =>
      intro a b c hs hc
      simp at hs
  | @white d s rest hd _ ih =>
      intro a b c hs hc
      cases a with
      | nil =>
          obtain ⟨rfl, rfl⟩ := List.cons.inj hs
          exact absurd hd hc.not_white
      | cons e a =>
          rw [List.cons_append, List.cons.injEq] at hs
          obtain ⟨rfl, hs⟩ := hs
          rw [modeAfter_cons, begins_code (d :: a) d rfl, hd.mode]
          exact ih hs hc
  | comment hbody _ ih =>
      intro a b c hs hc
      rcases comment_line hbody hs (hne hc).1 (hne hc).2 with hcomment | ⟨t, ht, hmode⟩
      · exact hcomment
      · rw [hmode]
        exact ih ht hc
  | lastComment hbody =>
      intro a b c hs hc
      exact commentPrefix hbody hs (hne hc).1

/-- What a call skips is blank if it has no stray character outside comments. -/
theorem Skips.blank {s rest : List Char} (h : Skips s rest)
    (hno : ∀ a c b, s = a ++ c :: b → (modeAfter .code a).Outside → ¬ Stray c) : Blank s rest := by
  induction h with
  | nil => exact .nil
  | @space c s rest hc _ ih =>
      refine .white (isWhite_of_isSpace hc) (ih fun a d b hs hout => ?_)
      refine hno (c :: a) d b (by rw [hs]; rfl) ?_
      rw [modeAfter_cons, begins_code (c :: a) c rfl, plain_of_isSpace hc]
      exact hout
  | @comment body s rest hbody _ ih =>
      refine .comment hbody (ih fun a d b hs hout => ?_)
      refine hno ('-' :: '-' :: (body ++ '\n' :: a)) d b (by rw [hs]; simp) ?_
      rw [modeAfter_cons, modeAfter_cons, modeAfter_append]
      show (modeAfter (modeAfter .comment body) ('\n' :: a)).Outside
      rw [modeAfter_comment hbody]
      exact hout
  | lastComment hbody => exact .lastComment hbody
  | @nothing c s rest hc _ ih =>
      -- it stands in code, and no character there is stray, so it is white
      have hwhite : IsWhite c := isWhite_of_startsNothing hc (hno [] c s rfl (by decide))
      refine .white hwhite (ih fun a d b hs hout => ?_)
      refine hno (c :: a) d b (by rw [hs]; rfl) ?_
      rw [modeAfter_cons, begins_code (c :: a) c rfl, hwhite.mode]
      exact hout

/-! ### Where a call begins -/

/-- A call does not begin in a string, nor in a comment whose line goes on. -/
theorem Begins.outside {m : Mode} {c : Char} {s : List Char} (h : Begins m (c :: s))
    (hline : c ≠ '\n') : m.Outside := by
  have hstep : m.step c = codeStep c := h c rfl
  constructor
  · rintro rfl
    by_cases hq : c = '\''
    · subst hq
      cases hstep
    · rw [Mode.step, if_neg hq, codeStep, if_neg hq] at hstep
      split at hstep
      · cases hstep
      · cases hstep
  · rintro rfl
    rw [Mode.step, if_neg hline, codeStep] at hstep
    split at hstep
    · cases hstep
    · split at hstep
      · cases hstep
      · cases hstep

/-- The mode before a character that is no newline, whether or not a call begins there. -/
theorem Begins.outside_iff {m : Mode} {a b : List Char} {c : Char}
    (h : Begins m (a ++ c :: b)) (hline : c ≠ '\n') :
    (modeAfter m a).Outside ↔ (modeAfter .code a).Outside := by
  cases a with
  | nil => exact ⟨fun _ => (by decide), fun _ => h.outside hline⟩
  | cons d a => rw [h.mode (List.cons_ne_nil d a)]

/-- Behind skipped characters and an item the next call begins. -/
theorem begins_after {done s used rest : List Char} {r : LexResult}
    (hbegin : Begins (modeAfter .code done) (s ++ (used ++ rest)))
    (hskip : Skips s (used ++ rest)) (hitem : Item (done ++ s) used rest r) :
    Begins (modeAfter .code (done ++ (s ++ used))) rest := by
  cases rest with
  | nil =>
      intro c hc
      cases hc
  | cons d rest =>
      rw [mode_of_item hbegin hskip hitem.used_ne_nil]
      exact Item.begins hitem (List.cons_ne_nil d rest)

/-! ### Both directions -/

/-- No word is a string. -/
theorem wordToken_ne_string (s : List Char) (n : Nat) (str : SourceString) :
    (wordToken s n).2 ≠ .literal (.literalString str) := by
  unfold wordToken
  split
  · exact TokenValue.noConfusion
  · split
    · rename_i l hl
      rw [literalWord_eq] at hl
      obtain ⟨w, hmem, -⟩ := firstMatch_mem hl
      have htable : ∀ e ∈ literalWords, e.2 ≠ .literalString str := by simp [literalWords]
      intro heq
      exact htable _ hmem (TokenValue.literal.inj heq)
    · split
      · exact TokenValue.noConfusion
      · exact TokenValue.noConfusion

/-- The value of a string is what stands between its quotes. -/
theorem Item.quotes {pre used rest : List Char} {token : Token}
    (h : Item pre used rest (.ok token)) : Quotes token used := by
  intro s hs
  generalize hr : (Except.ok token : LexResult) = r at h
  cases h with
  | single => cases hr; cases hs
  | double => cases hr; cases hs
  | half => cases hr; cases hs
  | bang => cases hr
  | sub => cases hr; cases hs
  | @string body =>
      cases hr
      cases hs
      simp [SourceString.text]
  | openString => cases hr
  | number =>
      -- a numeral denotes a number
      obtain ⟨l, rfl, ⟨f, rfl⟩ | ⟨i, rfl⟩⟩ := numberToken_ok hr.symm
      · cases hs
      · cases hs
  | badNumber => cases hr
  | word =>
      cases hr
      exact absurd hs (wordToken_ne_string _ _ _)

/-- Without stray characters nothing is lost: by induction on the calls, and each begins outside
strings and comments. -/
theorem LexesTo.lossless {lexer : Lexer} {tokens : List Token} (h : LexesTo lexer tokens) :
    ∀ {done todo : List Char}, StandsAt lexer done todo → Begins (modeAfter .code done) todo →
      NoStray (done ++ todo) → Lossless done todo tokens := by
  -- what a call skips, as a part of the text
  have hblank : ∀ {done s rest : List Char}, Skips s rest →
      Begins (modeAfter .code done) (s ++ rest) → NoStray (done ++ (s ++ rest)) →
      Blank s rest := by
    intro done s rest hskip hbegin hno
    refine Skips.blank hskip fun a c b hs hout hc => ?_
    subst hs
    rw [List.append_assoc, List.cons_append] at hbegin
    have hline : c ≠ '\n' := by
      rintro rfl
      exact hc.not_white (Or.inr (Or.inr (Or.inr rfl)))
    refine hno (done ++ a) c (b ++ rest) (by simp) ?_ hc
    rw [modeAfter_append]
    exact (hbegin.outside_iff hline).mpr hout
  induction h with
  | eof hnext heof =>
      intro done todo hat hbegin hno
      obtain ⟨hcall, -⟩ := hat.next
      rw [hnext] at hcall
      rcases hcall with ⟨hskip, -, -⟩ | ⟨s, used, rest, -, -, hitem, -⟩
      · exact .nil (hblank hskip (by rwa [List.append_nil]) (by rwa [List.append_nil]))
      · exact absurd heof (valid_of_item hitem).1
  | token hnext heof _ ih =>
      intro done todo hat hbegin hno
      obtain ⟨hcall, hpeeks⟩ := hat.next
      rw [hnext] at hcall
      rcases hcall with ⟨-, heq, -⟩ | ⟨s, used, rest, rfl, hskip, hitem, hread⟩
      · obtain rfl := Except.ok.inj heq
        exact absurd rfl heof
      · rw [List.append_assoc] at hbegin hno hread ⊢
        refine .cons (hblank hskip hbegin hno) hitem (Item.quotes hitem) ?_
        refine ih ⟨hpeeks, hread⟩ (begins_after hbegin hskip hitem) ?_
        rwa [List.append_assoc, List.append_assoc]

/-- Where nothing is lost there are no stray characters: by induction on the lexemes. -/
theorem Lossless.noStray {pre s : List Char} {tokens : List Token} (h : Lossless pre s tokens) :
    ∀ {a b : List Char} {c : Char}, s = a ++ c :: b → Begins (modeAfter .code pre) s →
      (modeAfter .code (pre ++ a)).Outside → ¬ Stray c := by
  -- a stray character that is skipped is in a comment
  have hskipped : ∀ {pre s rest a b t : List Char} {c : Char}, Blank s rest → s = a ++ c :: b →
      Begins (modeAfter .code pre) (a ++ c :: t) → (modeAfter .code (pre ++ a)).Outside →
      ¬ Stray c := by
    intro pre s rest a b t c hblank hs hbegin hout hc
    have hcomment := hblank.in_comment hs hc
    have hline : c ≠ '\n' := by
      rintro rfl
      exact hc.not_white (Or.inr (Or.inr (Or.inr rfl)))
    rw [modeAfter_append, hbegin.outside_iff hline] at hout
    exact hout.2 hcomment
  induction h with
  | nil hblank =>
      intro a b c hs hbegin hout
      exact hskipped hblank hs (hs ▸ hbegin) hout
  | @cons pre s used rest token tokens hblank hitem _ _ ih =>
      intro a b c hs hbegin hout hc
      have hskip : Skips s (used ++ rest) := hblank.skips
      rcases append_eq_append_cons hs with ⟨v, hblanks, -⟩ | ⟨v, ha, hv⟩
      · exact hskipped hblank hblanks (hs ▸ hbegin) hout hc
      · subst ha
        rcases append_eq_append_cons hv with ⟨w, hused, -⟩ | ⟨u, rfl, hrest⟩
        · subst hused
          cases v with
          | nil => exact Item.starts hitem hc.1
          | cons d v =>
              have hne : d :: v ≠ [] := List.cons_ne_nil d v
              rw [List.append_assoc] at hbegin hskip
              rw [mode_of_item hbegin hskip hne] at hout
              rcases Item.inside hitem rfl hne hc.wordlike with hstring | ⟨hident, -⟩
              · exact hout.1 hstring
              · rw [hc.1.2.2.2.2.2] at hident
                cases hident
        · refine ih hrest (begins_after hbegin hskip hitem) ?_ hc
          rwa [List.append_assoc, List.append_assoc]

/-- Lexing that comes to the end of the source without an error is lossless exactly when, outside
strings and comments, the source has only characters of tokens and white space. -/
theorem lexer_lossless_iff (source : Source) (tokens : List Token)
    (h : LexesTo (lexerInit source) tokens) :
    Lossless [] source.val tokens ↔ NoStray source.val := by
  constructor
  · intro hlossless pre c rest hs hout
    exact hlossless.noStray hs (begins_code _) hout
  · intro hno
    exact h.lossless (standsAt_lexerInit source) (begins_code _) hno

/-- A source without stray characters, with a tab. -/
def tabSource : Source := ⟨"\t'a'".toList, by decide⟩

/-- `tabSource` is lexed to its end, so the theorem is about a real run. -/
theorem lexer_lossless_iff_tabSource : ∃ tokens, LexesTo (lexerInit tabSource) tokens ∧
    (Lossless [] tabSource.val tokens ↔ NoStray tabSource.val) := by
  have h : LexesTo (lexerInit tabSource)
      [⟨.tokenLiteral, ⟨⟨1, 2, 1⟩, ⟨1, 4, 3⟩⟩, .literal (.literalString ⟨"a'".toList, 1⟩)⟩] :=
    .token (by decide +kernel) (by decide)
      (.eof (show _ = Except.ok Token.eof by decide +kernel) rfl)
  exact ⟨_, h, lexer_lossless_iff tabSource _ h⟩

/-- A source with a stray character. -/
def hashSource : Source := ⟨"x # y".toList, by decide⟩

/-- The `#` disappears: the tokens are those of `x` and `y`, and there is no error. -/
theorem lexer_loses_hash : ∃ tokens, LexesTo (lexerInit hashSource) tokens ∧
    tokens.map (·.type) = [.tokenIdentifier, .tokenIdentifier] ∧
    ¬ Lossless [] hashSource.val tokens := by
  refine ⟨[⟨.tokenIdentifier, ⟨⟨1, 1, 0⟩, ⟨1, 1, 0⟩⟩, .identifier ⟨"x # y".toList, 1⟩⟩,
      ⟨.tokenIdentifier, ⟨⟨1, 5, 4⟩, ⟨1, 5, 4⟩⟩, .identifier ⟨"y".toList, 1⟩⟩], ?_, rfl, ?_⟩
  · refine .token (by decide +kernel) (by decide) (.token (by decide +kernel) (by decide) ?_)
    exact .eof (show _ = Except.ok Token.eof by decide +kernel) rfl
  · intro h
    have hstray : Stray '#' := ⟨by simp only [startsNothing]; decide, by decide, by decide⟩
    exact h.noStray (a := "x ".toList) (b := " y".toList) rfl (begins_code _) (by decide) hstray

end Nucleus.Proofs
