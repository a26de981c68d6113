import Nucleus.Proofs.Skipping
import Nucleus.Spec.Operators

/-!
# `Nucleus.Proofs.Operators`: operators and punctuation by longest match

The calls of `nulang__lexer_next` on a text of operators should return their types in order and
then the end (`LexesAs`). Each call reads the longest operator in front of it, whatever separates
it from the next one (`results_operator`), and so the types of a whole text can be said
(`results_operators`). They are the right ones but for two things. The two brackets carry each
other's type, and a `-` with a comment line right behind it is lost in that comment. Hence the law
holds of a text exactly when it has no bracket and no such comment (`lexesAs_types_iff`).
-/

set_option autoImplicit false

namespace Nucleus.Proofs

open Nucleus.Lang
open Nucleus.Spec

/-! ### The specification -/

/-- The calls of `nulang__lexer_next` on the source return tokens of these types, and then the
end. -/
def LexesAs (source : Source) (types : List TokenType) : Prop :=
  ∃ tokens, LexesTo (lexerInit source) tokens ∧ tokens.map (·.type) = types

/-- No bracket is in the text, and no comment line right behind a `-`. -/
def Intact (written : List SpacedOperator) : Prop :=
  ∀ w ∈ written, ¬ w.operator.Bracket ∧ ¬ w.Swallowed

/-! ### The tokens of a lexer -/

/-- Results that are all tokens are what the calls return. -/
theorem lexesTo_of_reads : ∀ {tokens : List Token} {l : Lexer},
    LexerReads l (tokens.map .ok) → LexesTo l tokens
  | [], _, h => .eof h.next_nil.1 rfl
  | _ :: _, _, h =>
      .token h.next_cons.1 (h.valid List.mem_cons_self).1 (lexesTo_of_reads h.next_cons.2)

/-- The calls return the results of the lexer: by induction on the calls. -/
theorem LexesTo.results {l : Lexer} {tokens : List Token} (h : LexesTo l tokens) :
    ∀ {rs : List LexResult}, LexerReads l rs → rs = tokens.map .ok := by
  induction h with
  | eof hnext heof =>
      intro rs hreads
      cases rs with
      | nil => rfl
      | cons r rs =>
          -- a result before the end is not the end
          have hr : r = _ := hreads.next_cons.1.symm.trans hnext
          exact absurd heof (hreads.valid (by rw [hr]; exact List.mem_cons_self)).1
  | token hnext hne _ ih =>
      intro rs hreads
      cases rs with
      | nil =>
          rw [hreads.next_nil.1] at hnext
          exact absurd (congrArg Token.type (Except.ok.inj hnext)).symm hne
      | cons r rs =>
          have hr : r = _ := hreads.next_cons.1.symm.trans hnext
          rw [List.map_cons, hr, ih hreads.next_cons.2]

/-- A source whose results are tokens lexes as their types, and as nothing else. -/
theorem lexesAs_iff_of_results {source : Source} {tokens : List Token}
    (h : streamResults (streamInit source) = tokens.map .ok) (types : List TokenType) :
    LexesAs source types ↔ types = tokens.map (·.type) := by
  have hreads : LexerReads (lexerInit source) (tokens.map .ok) := by
    rw [← h]
    exact .empty (reading_streamInit source)
  constructor
  · rintro ⟨tokens', hlexes, rfl⟩
    have heq := LexesTo.results hlexes hreads
    rw [List.map_injective_iff.mpr (fun _ _ => Except.ok.inj) heq]
  · rintro rfl
    exact ⟨tokens, lexesTo_of_reads hreads, rfl⟩

/-! ### Separators are skipped -/

/-- A separator is skipped. -/
theorem Separator.skips (s : Separator) (rest : List Char) : Skips s.text rest := by
  cases s with
  | space => exact .space rfl .nil
  | newline => exact .space rfl .nil
  | comment body => exact .comment body.property.1 .nil

/-- A gap is skipped. -/
theorem gapText_skips (gap : List Separator) (rest : List Char) : Skips (gapText gap) rest := by
  induction gap with
  | nil => exact .nil
  | cons s gap ih => exact Skips.append (Separator.skips s _) ih

/-- A gap begins with a space, a newline or the dash of a comment. -/
theorem gapText_head {s : Separator} {gap : List Separator} {tail : List Char} {c : Char}
    (h : c ∈ (gapText (s :: gap) ++ tail).head?) :
    c ≠ '=' ∧ (c = '-' → ∃ body, s = .comment body) := by
  cases s with
  | space =>
      cases h
      exact ⟨by decide, fun hc => absurd hc (by decide)⟩
  | newline =>
      cases h
      exact ⟨by decide, fun hc => absurd hc (by decide)⟩
  | comment body =>
      cases h
      exact ⟨by decide, fun _ => ⟨body, rfl⟩⟩

/-! ### One operator -/

/-- The type that the lexer gives to an operator. The brackets have changed places. -/
def lexedType : Operator → TokenType
  | .lbracket => .tokenRbracket
  | .rbracket => .tokenLbracket
  | op => op.type

/-- An operator is lexed as its own type exactly when it is no bracket. -/
theorem lexedType_eq_iff (op : Operator) : lexedType op = op.type ↔ ¬ op.Bracket := by
  cases op <;> simp [lexedType, Operator.type, Operator.Bracket]

/-- What an operator's spelling begins with. -/
structure Leads (op : Operator) (c : Char) (more : List Char) : Prop where
  spelling : op.spelling = c :: more
  ident : identifierChar c = false
  quote : c ≠ '\''
  space : isSpace c = false
  starts : ¬ startsNothing c

/-- An operator begins with a character that starts a token, and no word or string. -/
theorem exists_leads (op : Operator) : ∃ c more, Leads op c more := by
  cases op <;> exact ⟨_, _, rfl, by decide, by decide, by decide, by decide⟩

/-- The longest symbol at an operator that nothing extends is the operator. -/
theorem symbol_operator {op : Operator} {c : Char} {more tail : List Char} (h : Leads op c more)
    (htail : ∀ d ∈ tail.head?, ¬ op.Extends d) (loc : Location) :
    ∃ token, symbol loc c (more ++ tail) = (op.spelling, .ok token) ∧
      token.type = lexedType op := by
  have hspelling := h.spelling
  cases op
  case assign | less | greater =>
    have hhead : tail.head? ≠ some '=' := by
      intro hd
      refine htail '=' hd (Or.inl ⟨rfl, ?_⟩)
      simp
    cases hspelling
    exact ⟨_, if_neg hhead, rfl⟩
  all_goals
    cases hspelling
    exact ⟨_, rfl, rfl⟩

/-- An operator that nothing extends does not begin a comment. -/
theorem operator_stops {op : Operator} {c : Char} {more tail : List Char} (h : Leads op c more)
    (htail : ∀ d ∈ tail.head?, ¬ op.Extends d) : Stops (op.spelling ++ tail) := by
  rw [h.spelling]
  refine ⟨?_, ?_, ?_⟩
  · intro d hd
    cases hd
    exact h.space
  · intro d hd
    cases hd
    exact h.starts
  · intro rest heq
    obtain ⟨rfl, hrest⟩ := List.cons.inj heq
    have hspelling := h.spelling
    cases op
    case sub =>
      cases hspelling
      exact htail '-' (congrArg List.head? hrest) (Or.inr ⟨rfl, rfl⟩)
    all_goals cases hspelling

/-- Behind separators, the next result is the longest operator. -/
theorem results_operator {l : CharStream} {pre tail : List Char} {gap : List Separator}
    {op : Operator} (h : Reading l pre (gapText gap ++ (op.spelling ++ tail)))
    (htail : ∀ d ∈ tail.head?, ¬ op.Extends d) :
    ∃ token l', streamResults l = .ok token :: streamResults l' ∧ token.type = lexedType op ∧
      Reading l' (pre ++ gapText gap ++ op.spelling) tail := by
  obtain ⟨c, more, hlead⟩ := exists_leads op
  have hne : op.spelling ++ tail ≠ [] := by
    rw [hlead.spelling]
    exact List.cons_ne_nil _ _
  obtain ⟨r, l', used, rest, hsplit, hitem, hread, hresults⟩ :=
    results_behind h (gapText_skips gap _) (operator_stops hlead htail) hne
  have hchars : used ++ rest = c :: (more ++ tail) := by
    rw [hsplit, hlead.spelling]
    rfl
  -- the item is the longest symbol, and the operator is one that nothing extends
  have hsymbol := Item.eq_symbol hitem hchars hlead.ident hlead.quote
  obtain ⟨token, hop, htype⟩ := symbol_operator hlead htail (locationAfter (pre ++ gapText gap))
  rw [hop] at hsymbol
  obtain ⟨rfl, rfl⟩ := Prod.mk.inj hsymbol
  obtain rfl := List.append_cancel_left hsplit
  exact ⟨token, l', hresults, htype, hread⟩

/-! ### A text of operators -/

/-- The types that the lexer gives to an operator with its separators: none if a comment line
takes the operator. -/
def lexedTypes (w : SpacedOperator) : List TokenType :=
  match w.operator, w.gap with
  | .sub, .comment _ :: _ => []
  | op, _ => [lexedType op]

/-- A `-` with a comment right behind it becomes part of the comment. -/
theorem lexedTypes_swallowed {w : SpacedOperator} (h : w.Swallowed) : lexedTypes w = [] := by
  obtain ⟨hsub, body, rest, hgap⟩ := h
  rw [lexedTypes, hsub, hgap]

/-- Any other operator is read as its type. -/
theorem lexedTypes_kept {w : SpacedOperator} (h : ¬ w.Swallowed) :
    lexedTypes w = [lexedType w.operator] := by
  unfold lexedTypes
  split
  · rename_i hsub hgap
    exact absurd ⟨hsub, _, _, hgap⟩ h
  · rfl

/-- What stands behind an operator of a text does not extend it, unless a comment line takes it. -/
theorem not_extends {w : SpacedOperator} {ws : List SpacedOperator}
    (hapart : (w :: ws).IsChain fun w next => w.gap = [] → ¬ w.operator.Merges next.operator)
    (hkept : ¬ w.Swallowed) :
    ∀ d ∈ (gapText w.gap ++ ws.flatMap SpacedOperator.text).head?, ¬ w.operator.Extends d := by
  intro d hd hext
  cases hgap : w.gap with
  | nil =>
      rw [hgap] at hd
      cases ws with
      | nil => cases hd
      | cons next ws =>
          -- the next operator stands right behind this one
          obtain ⟨c, more, hlead⟩ := exists_leads next.operator
          have hhead : next.operator.spelling.head? = some d := by
            rw [List.flatMap_cons, SpacedOperator.text, hlead.spelling] at hd
            rw [hlead.spelling]
            exact hd
          have hmerge := (List.isChain_cons_cons.mp hapart).1 hgap
          exact hmerge ⟨d, hhead, hext⟩
  | cons s gap =>
      rw [hgap] at hd
      obtain ⟨heq, hdash⟩ := gapText_head hd
      rcases hext with ⟨rfl, -⟩ | ⟨rfl, hsub⟩
      · exact heq rfl
      · obtain ⟨body, rfl⟩ := hdash rfl
        exact hkept ⟨hsub, body, gap, hgap⟩

/-- The dash in front of a comment line is one of the comment. -/
theorem text_of_swallowed {w : SpacedOperator} (h : w.Swallowed) :
    ∃ gap, w.text = gapText gap := by
  obtain ⟨hsub, body, rest, hgap⟩ := h
  have hline : '\n' ∉ '-' :: body.val := by simpa using body.property.1
  have hnul : '\x00' ∉ '-' :: body.val := by simpa using body.property.2
  refine ⟨.comment ⟨'-' :: body.val, hline, hnul⟩ :: rest, ?_⟩
  rw [SpacedOperator.text, hsub, hgap]
  rfl

/-- What the calls return on a text of operators: by induction on the operators, behind any
separators. -/
theorem results_operators : ∀ {ws : List SpacedOperator} {lead : List Separator} {l : CharStream}
    {pre : List Char},
    (ws.IsChain fun w next => w.gap = [] → ¬ w.operator.Merges next.operator) →
    Reading l pre (gapText lead ++ ws.flatMap SpacedOperator.text) →
    ∃ tokens : List Token, streamResults l = tokens.map .ok ∧
      tokens.map (·.type) = ws.flatMap lexedTypes := by
  intro ws
  induction ws with
  | nil =>
      intro lead l pre _ h
      rw [List.flatMap_nil, List.append_nil] at h
      exact ⟨[], results_nothing h (gapText_skips lead []), rfl⟩
  | cons w ws ih =>
      intro lead l pre hapart h
      rw [List.flatMap_cons] at h ⊢
      by_cases hw : w.Swallowed
      · -- the operator is a part of the separators in front of the next one
        obtain ⟨gap, hgap⟩ := text_of_swallowed hw
        have htext : gapText lead ++ (w.text ++ ws.flatMap SpacedOperator.text) =
            gapText (lead ++ gap) ++ ws.flatMap SpacedOperator.text := by
          rw [hgap, gapText, gapText, gapText, List.flatMap_append, List.append_assoc]
        rw [htext] at h
        rw [lexedTypes_swallowed hw]
        exact ih hapart.of_cons h
      · rw [SpacedOperator.text, List.append_assoc] at h
        obtain ⟨token, l', hresults, htype, hread⟩ := results_operator h (not_extends hapart hw)
        obtain ⟨tokens, htokens, htypes⟩ := ih hapart.of_cons hread
        refine ⟨token :: tokens, ?_, ?_⟩
        · rw [hresults, htokens]
          rfl
        · rw [lexedTypes_kept hw, List.map_cons, htype, htypes]
          rfl

/-- Not more tokens are read than were written. -/
theorem length_lexedTypes_le (ws : List SpacedOperator) :
    (ws.flatMap lexedTypes).length ≤ ws.length := by
  induction ws with
  | nil => exact Nat.le_refl _
  | cons w ws ih =>
      have hw : (lexedTypes w).length ≤ 1 := by
        by_cases hw : w.Swallowed
        · rw [lexedTypes_swallowed hw]
          exact Nat.zero_le _
        · rw [lexedTypes_kept hw]
          exact Nat.le_refl _
      rw [List.flatMap_cons, List.length_append, List.length_cons]
      omega

/-- The types are the right ones exactly when no bracket is there and no operator is lost. -/
theorem types_eq_iff (ws : List SpacedOperator) :
    ws.map (·.operator.type) = ws.flatMap lexedTypes ↔ Intact ws := by
  induction ws with
  | nil => simp [Intact]
  | cons w ws ih =>
      rw [List.map_cons, List.flatMap_cons, Intact, List.forall_mem_cons, ← Intact, ← ih,
        ← lexedType_eq_iff]
      by_cases hw : w.Swallowed
      · rw [lexedTypes_swallowed hw]
        constructor
        · intro heq
          -- one operator is lost, and none is won
          have hlen := congrArg List.length heq
          have hle := length_lexedTypes_le ws
          simp only [List.length_cons, List.length_map, List.nil_append] at hlen
          omega
        · rintro ⟨⟨-, hkept⟩, -⟩
          exact absurd hw hkept
      · rw [lexedTypes_kept hw, List.singleton_append, List.cons.injEq]
        constructor
        · rintro ⟨htype, hrest⟩
          exact ⟨⟨htype.symm, hw⟩, hrest⟩
        · rintro ⟨⟨htype, -⟩, hrest⟩
          exact ⟨htype.symm, hrest⟩

/-- What a text of operators lexes as, whether or not these are its types. -/
theorem lexesAs_source_iff (t : OperatorText) (types : List TokenType) :
    LexesAs t.source types ↔ types = t.written.flatMap lexedTypes := by
  have hread : Reading (streamInit t.source) []
      (gapText t.lead ++ t.written.flatMap SpacedOperator.text) := reading_streamInit t.source
  obtain ⟨tokens, hresults, htypes⟩ := results_operators t.apart hread
  rw [lexesAs_iff_of_results hresults, htypes]

/-- The calls of the lexer on a text of operators return the types of the operators exactly when
the text has no bracket and no comment line right behind a `-`. -/
theorem lexesAs_types_iff (t : OperatorText) : LexesAs t.source t.types ↔ Intact t.written := by
  rw [lexesAs_source_iff]
  exact types_eq_iff t.written

/-- The text `[`. -/
def openBracket : OperatorText := ⟨[], [⟨.lbracket, []⟩], .singleton _⟩

/-- An opening bracket is not lexed as one. -/
theorem not_lexesAs_openBracket : ¬ LexesAs openBracket.source openBracket.types := by
  rw [lexesAs_source_iff]
  decide

end Nucleus.Proofs
