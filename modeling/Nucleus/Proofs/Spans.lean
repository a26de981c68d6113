import Nucleus.Proofs.Words

/-!
# `Nucleus.Proofs.Spans`: the spans of tokens

The stream counts lines, columns and characters as machine integers. `PointsAt loc pre` says
that the location is the exact position behind the characters `pre`, and `SmallSource` is the
bound on lines and columns under which no counter wraps (`pointsAt_locationAfter`).

`LexemeOf source k pre used rest token` says that the call number `k` returns `token` and reads
the characters `used` for it. The span of a token is that of its lexeme, but for the tokens of
two characters: `NULANG_TOKEN_DOUBLE` leaves out the index of the second one
(`lexer_span_iff`).
-/

set_option autoImplicit false

namespace Nucleus.Proofs

open Nucleus.Lang
open Nucleus.Spec

/-! ### The specification -/

/-- The number of characters behind the last newline of `pre`. -/
def sinceNewline (pre : List Char) : Nat := (pre.reverse.takeWhile (· ≠ '\n')).length

/-- `loc` is the position behind the characters `pre`. -/
structure PointsAt (loc : Location) (pre : List Char) : Prop where
  index : loc.index.toNat = pre.length
  line : loc.line.toNat = 1 + pre.count '\n'
  column : loc.column.toNat = 1 + sinceNewline pre

/-- Fewer than 65536 lines, and fewer than 65536 columns in each. -/
structure SmallSource (s : List Char) : Prop where
  lines : 1 + s.count '\n' < 65536
  columns : ∀ pre line rest, s = pre ++ (line ++ rest) → '\n' ∉ line → line.length < 65536

/-- The call number `k` returns `token`, and `used` are the characters it reads for it, behind
those it skips. -/
structure LexemeOf (source : Source) (k : Nat) (pre used rest : List Char) (token : Token) :
    Prop where
  text : source.val = pre ++ (used ++ rest)
  result : (lexerNext (lexerAfter source k)).1 = .ok token
  item : Item pre used rest (.ok token)
  starts : consumed (lexerAfter source k) ≤ pre.length
  stops : consumed (lexerAfter source (k + 1)) = pre.length + used.length

/-- The span begins at the first character of `used` and ends at the last one. -/
structure SpanOf (span : Span) (pre used : List Char) : Prop where
  start : PointsAt span.start pre
  stop : PointsAt span.stop (pre ++ used.dropLast)

/-- The range of `a` is a range, and it ends before that of `b` begins. -/
def Precedes (a b : Span) : Prop := a.start.index ≤ a.stop.index ∧ a.stop.index < b.start.index

/-- The lexemes of the tokens that `NULANG_TOKEN_DOUBLE` makes. -/
def doubleLexemes : List (List Char) := ["==".toList, "<=".toList, ">=".toList, "!=".toList]

/-! ### Counting lines and columns -/

/-- The column behind one more character. -/
theorem sinceNewline_snoc (pre : List Char) (c : Char) :
    sinceNewline (pre ++ [c]) = if c = '\n' then 0 else sinceNewline pre + 1 := by
  unfold sinceNewline
  rw [List.reverse_append, List.reverse_singleton, List.singleton_append]
  by_cases hc : c = '\n'
  · rw [List.takeWhile_cons_of_neg (by simp [hc]), if_pos hc]
    rfl
  · rw [List.takeWhile_cons_of_pos (by simpa using hc), if_neg hc]
    rfl

/-- What stands behind the last newline is a part of one line. -/
theorem exists_line (pre : List Char) :
    ∃ before line, pre = before ++ line ∧ '\n' ∉ line ∧ line.length = sinceNewline pre := by
  refine ⟨(pre.reverse.dropWhile (· ≠ '\n')).reverse, (pre.reverse.takeWhile (· ≠ '\n')).reverse,
    ?_, ?_, by simp [sinceNewline]⟩
  · rw [← List.reverse_append, List.takeWhile_append_dropWhile, List.reverse_reverse]
  · intro hmem
    rw [List.mem_reverse] at hmem
    have hne := List.mem_takeWhile_imp hmem
    simp at hne

/-- In a small source no column wraps. -/
theorem SmallSource.sinceNewline_lt {s pre rest : List Char} (h : SmallSource s)
    (hs : s = pre ++ rest) : sinceNewline pre < 65536 := by
  obtain ⟨before, line, rfl, hline, hlen⟩ := exists_line pre
  rw [← hlen]
  exact h.columns before line rest (by rw [hs, List.append_assoc]) hline

/-- A column that some character of its line stands in fits its counter. -/
theorem SmallSource.sinceNewline_succ_lt {s pre rest : List Char} {c : Char} (h : SmallSource s)
    (hs : s = pre ++ c :: rest) (hc : c ≠ '\n') : sinceNewline pre + 1 < 65536 := by
  have hsnoc := sinceNewline_snoc pre c
  rw [if_neg hc] at hsnoc
  rw [← hsnoc]
  exact h.sinceNewline_lt (by rw [hs, List.append_assoc]; rfl)

/-- Lines of bounded length make a text of bounded length. -/
theorem length_le_lines {s : List Char} (h : SmallSource s) : ∀ {pre rest : List Char},
    s = pre ++ rest → pre.length ≤ pre.count '\n' * 65536 + sinceNewline pre := by
  intro pre
  induction pre using List.reverseRecOn with
  | nil => exact fun _ => Nat.zero_le _
  | append_singleton pre c ih =>
      intro rest hs
      rw [List.append_assoc] at hs
      have hpre := ih hs
      have hcol := h.sinceNewline_lt hs
      rw [sinceNewline_snoc, List.length_append, List.length_singleton, List.count_append]
      by_cases hc : c = '\n'
      · rw [if_pos hc, hc, List.count_singleton_self]
        omega
      · have hcount : List.count '\n' [c] = 0 := List.count_eq_zero.mpr (by simpa using Ne.symm hc)
        rw [if_neg hc, hcount]
        omega

/-- In a small source no index wraps. -/
theorem SmallSource.length_lt {s pre rest : List Char} (h : SmallSource s)
    (hs : s = pre ++ rest) : pre.length < 4294967296 := by
  have hlen := length_le_lines h hs
  have hcol := h.sinceNewline_lt hs
  have hlines := h.lines
  rw [hs, List.count_append] at hlines
  omega

/-- The counters of the stream, without the wrap of the column. -/
theorem locationAfter_counts {s : List Char} (h : SmallSource s) : ∀ {pre rest : List Char},
    s = pre ++ rest →
    (locationAfter pre).index.toNat = pre.length ∧
      (locationAfter pre).line.toNat = 1 + pre.count '\n' ∧
      (locationAfter pre).column.toNat = (1 + sinceNewline pre) % 65536 := by
  intro pre
  induction pre using List.reverseRecOn with
  | nil => exact fun _ => ⟨rfl, rfl, rfl⟩
  | append_singleton pre c ih =>
      intro rest hs
      have hlen := h.length_lt hs
      have hlines := h.lines
      rw [List.append_assoc] at hs
      obtain ⟨hindex, hline, hcolumn⟩ := ih hs
      have hone : (1 : UInt16).toNat = 1 := rfl
      have hone' : (1 : UInt32).toNat = 1 := rfl
      rw [hs, List.count_append] at hlines
      rw [List.length_append, List.length_singleton] at hlen
      rw [locationAfter_snoc, locationStep, sinceNewline_snoc, List.length_append,
        List.length_singleton, List.count_append]
      -- a newline counts as a line, and the columns begin anew
      by_cases hc : c = '\n'
      · subst hc
        rw [if_pos rfl, if_pos rfl, List.count_singleton_self]
        rw [List.singleton_append, List.count_cons_self] at hlines
        simp only [UInt16.toNat_add, UInt32.toNat_add, hindex, hline, hone, hone']
        exact ⟨Nat.mod_eq_of_lt hlen, by omega, trivial⟩
      · have hcount : List.count '\n' [c] = 0 := List.count_eq_zero.mpr (by simpa using Ne.symm hc)
        rw [if_neg hc, if_neg hc, hcount]
        simp only [UInt16.toNat_add, UInt32.toNat_add, hindex, hline, hcolumn, hone, hone']
        exact ⟨Nat.mod_eq_of_lt hlen, by omega, by omega⟩

/-- The location of a character that is no newline. -/
theorem pointsAt_locationAfter {s pre rest : List Char} {c : Char} (h : SmallSource s)
    (hs : s = pre ++ c :: rest) (hc : c ≠ '\n') : PointsAt (locationAfter pre) pre := by
  obtain ⟨hindex, hline, hcolumn⟩ := locationAfter_counts h hs
  have hcol := h.sinceNewline_succ_lt hs hc
  exact ⟨hindex, hline, hcolumn.trans (Nat.mod_eq_of_lt (by omega))⟩

/-! ### The span of an item -/

/-- The symbols of two characters. -/
theorem mem_doubleLexemes {c : Char} {d : TokenType} {o : Option TokenType}
    (h : doubleCharType c = some (d, o)) : [c, '='] ∈ doubleLexemes := by
  have htable := of_doubleChars (P := fun e => [e.1, '='] ∈ doubleLexemes) (by decide) h
  simpa using htable

/-- What a lexeme that starts with a letter, a digit or a quote, or that is one character long,
is not. -/
theorem notMem_doubleLexemes {c : Char} {used : List Char}
    (h : used = [] ∨ c = '\'' ∨ identifierChar c = true) : c :: used ∉ doubleLexemes := by
  intro hmem
  simp only [doubleLexemes, List.mem_cons, List.not_mem_nil, or_false] at hmem
  rcases hmem with hmem | hmem | hmem | hmem
  all_goals
    obtain ⟨rfl, rfl⟩ := List.cons.inj hmem
    rcases h with h | h | h
    · cases h
    · exact absurd h (by decide)
    · exact absurd h (by decide)

/-- The lexer gives each token the span of its lexeme, except that the stop of a token with two
characters has no index. -/
theorem Item.span {pre used rest : List Char} {t : Token} (h : Item pre used rest (.ok t)) :
    t.span.start = locationAfter pre ∧
      ((used ∈ doubleLexemes ∧ t.span.stop.index = 0) ∨
        (used ∉ doubleLexemes ∧ t.span.stop = locationAfter (pre ++ used.dropLast))) := by
  generalize hr : (Except.ok t : LexResult) = r at h
  have hone : ∀ (c : Char), locationAfter pre = locationAfter (pre ++ [c].dropLast) := by
    intro c
    rw [List.dropLast_singleton, List.append_nil]
  cases h with
  | single =>
      cases hr
      exact ⟨rfl, Or.inr ⟨notMem_doubleLexemes (Or.inl rfl), hone _⟩⟩
  | double hc =>
      cases hr
      exact ⟨rfl, Or.inl ⟨mem_doubleLexemes hc, rfl⟩⟩
  | half =>
      cases hr
      exact ⟨rfl, Or.inr ⟨notMem_doubleLexemes (Or.inl rfl), hone _⟩⟩
  | bang => cases hr
  | sub =>
      cases hr
      exact ⟨rfl, Or.inr ⟨notMem_doubleLexemes (Or.inl rfl), hone _⟩⟩
  | @string body =>
      cases hr
      refine ⟨rfl, Or.inr ⟨notMem_doubleLexemes (Or.inr (Or.inl rfl)), ?_⟩⟩
      rw [← List.cons_append, List.dropLast_concat]
  | openString => cases hr
  | @number c used rest hdigit =>
      have hident : identifierChar c = true := by simp [identifierChar, hdigit]
      -- the value of the numeral does not matter for its span
      have hspan : t.span =
          ⟨locationAfter pre, locationAfter (pre ++ (c :: used).dropLast)⟩ := by
        obtain ⟨l, rfl, -⟩ := numberToken_ok hr.symm
        rfl
      rw [hspan]
      exact ⟨rfl, Or.inr ⟨notMem_doubleLexemes (Or.inr (Or.inr hident)), rfl⟩⟩
  | badNumber => cases hr
  | @word c used rest _ hall =>
      cases hr
      exact ⟨rfl, Or.inr ⟨notMem_doubleLexemes (Or.inr (Or.inr (hall c (by simp)))), rfl⟩⟩

/-- No lexeme begins or ends with a newline. -/
theorem Item.ends {pre used rest : List Char} {t : Token} (h : Item pre used rest (.ok t)) :
    ∃ body c d, used = body ++ [d] ∧ used.head? = some c ∧ c ≠ '\n' ∧ d ≠ '\n' := by
  generalize hr : (Except.ok t : LexResult) = r at h
  have hsingle : ∀ {c : Char} {u : TokenType}, singleCharType c = some u → c ≠ '\n' := by
    rintro c u hc rfl
    cases hc
  have hdouble : ∀ {c : Char} {u : TokenType × Option TokenType},
      doubleCharType c = some u → c ≠ '\n' := by
    rintro c u hc rfl
    cases hc
  -- a numeral and a word consist of characters that are no newlines
  have hall : ∀ {c : Char} {used : List Char}, (∀ d ∈ c :: used, d ≠ '\n') →
      ∃ body c' d, c :: used = body ++ [d] ∧ (c :: used).head? = some c' ∧ c' ≠ '\n' ∧
        d ≠ '\n' := by
    intro c used hne
    have hsplit := List.dropLast_concat_getLast (List.cons_ne_nil c used)
    exact ⟨_, c, _, hsplit.symm, rfl, hne c (by simp), hne _ (List.getLast_mem _)⟩
  cases h with
  | @single c _ _ hc => exact ⟨[], c, c, rfl, rfl, hsingle hc, hsingle hc⟩
  | @double c _ _ _ hc => exact ⟨[c], c, '=', rfl, rfl, hdouble hc, by decide⟩
  | @half c _ _ _ hc => exact ⟨[], c, c, rfl, rfl, hdouble hc, hdouble hc⟩
  | bang => cases hr
  | sub => exact ⟨[], '-', '-', rfl, rfl, by decide, by decide⟩
  | @string body => exact ⟨'\'' :: body, '\'', '\'', by simp, rfl, by decide, by decide⟩
  | openString => cases hr
  | @number c used rest hdigit hpre =>
      refine hall fun d hd => ?_
      rw [← hpre] at hd
      rcases numeral_of_mem_numeralPrefix hd with hnum | rfl
      · rintro rfl
        exact absurd hnum (by decide)
      · decide
  | badNumber => cases hr
  | @word c used rest _ hident =>
      refine hall fun d hd => ?_
      rintro rfl
      exact absurd (hident _ hd) (by decide)

/-! ### The tokens of a source -/

section
variable {source : Source} {k : Nat} {token : Token}

/-- The calls go through the source from its start on. -/
theorem standsAt_source (source : Source) (k : Nat) :
    ∃ done todo, StandsAt (lexerAfter source k) done todo ∧ source.val = done ++ todo := by
  induction k with
  | zero => exact ⟨[], source.val, standsAt_lexerInit source, rfl⟩
  | succ k ih =>
      obtain ⟨done, todo, hat, htext⟩ := ih
      obtain ⟨hcall, hpeeks⟩ := hat.next
      rcases hcall with ⟨-, -, hend⟩ | ⟨s, used, rest, rfl, -, -, hread⟩
      · exact ⟨done ++ todo, [], ⟨hpeeks, .ended hend⟩, by simpa using htext⟩
      · exact ⟨done ++ s ++ used, rest, ⟨hpeeks, hread⟩, by simpa using htext⟩

/-- A call that returns a token reads a lexeme for it. -/
theorem exists_lexemeOf (hnext : (lexerNext (lexerAfter source k)).1 = .ok token)
    (heof : token.type ≠ .tokenEof) : ∃ pre used rest, LexemeOf source k pre used rest token := by
  obtain ⟨done, todo, hat, htext⟩ := standsAt_source source k
  obtain ⟨hcall, hpeeks⟩ := hat.next
  rw [hnext] at hcall
  rcases hcall with ⟨-, heq, -⟩ | ⟨s, used, rest, rfl, -, hitem, hread⟩
  · obtain rfl := Except.ok.inj heq
    exact absurd rfl heof
  · have hat' : StandsAt (lexerAfter source (k + 1)) (done ++ s ++ used) rest := ⟨hpeeks, hread⟩
    refine ⟨done ++ s, used, rest, by simpa using htext, hnext, hitem, ?_, ?_⟩
    · rw [hat.consumed, List.length_append]
      exact Nat.le_add_right _ _
    · rw [hat'.consumed, List.length_append]

/-- The span of a token is that of its lexeme, unless the lexeme is one of two characters. -/
theorem LexemeOf.spanOf_iff {pre used rest : List Char} (hsmall : SmallSource source.val)
    (h : LexemeOf source k pre used rest token) :
    SpanOf token.span pre used ↔ used ∉ doubleLexemes := by
  obtain ⟨hstart, hstop⟩ := Item.span h.item
  obtain ⟨body, c, d, rfl, hhead, hc, hd⟩ := Item.ends h.item
  have htext := h.text
  rw [List.dropLast_concat] at hstop
  constructor
  · rintro ⟨-, hspan⟩ hmem
    rw [List.dropLast_concat] at hspan
    -- the stop would be the first character of the source, and it is behind the start
    have hindex := hspan.index
    rcases hstop with ⟨-, hzero⟩ | ⟨hnot, -⟩
    · rw [hzero, List.length_append] at hindex
      have hbody : body ≠ [] := by
        rintro rfl
        exact absurd hmem (by
          rw [List.nil_append]
          exact notMem_doubleLexemes (Or.inl rfl))
      have hpos := List.length_pos_iff.mpr hbody
      have hnull : (0 : UInt32).toNat = 0 := rfl
      omega
    · exact hnot hmem
  · intro hnot
    rcases hstop with ⟨hmem, -⟩ | ⟨-, hstop⟩
    · exact absurd hmem hnot
    · refine ⟨?_, ?_⟩
      · obtain ⟨more, hmore⟩ : ∃ more, body ++ [d] = c :: more := by
          cases hb : body ++ [d] with
          | nil => simp at hb
          | cons e more =>
              rw [hb] at hhead
              cases hhead
              exact ⟨more, rfl⟩
        rw [hstart]
        rw [hmore, List.cons_append] at htext
        exact pointsAt_locationAfter hsmall htext hc
      · rw [hstop, List.dropLast_concat]
        have hlast : source.val = (pre ++ body) ++ d :: rest := by
          rw [htext]
          simp
        exact pointsAt_locationAfter hsmall hlast hd

/-- The ranges of consecutive tokens are in order. -/
theorem LexemeOf.precedes {pre used rest pre' used' rest' : List Char} {j : Nat} {token' : Token}
    (hsmall : SmallSource source.val) (h : LexemeOf source k pre used rest token)
    (h' : LexemeOf source j pre' used' rest' token') (hkj : k < j)
    (hspan : SpanOf token.span pre used) : Precedes token.span token'.span := by
  -- the later call starts where the earlier one has stopped, or behind
  have hmono : consumed (lexerAfter source (k + 1)) ≤ consumed (lexerAfter source j) :=
    consumed_mono source hkj
  have hle : pre.length + used.length ≤ pre'.length := by
    rw [← h.stops]
    exact Nat.le_trans hmono h'.starts
  have hpos := List.length_pos_iff.mpr h.item.used_ne_nil
  have hstart := hspan.start.index
  have hstop := hspan.stop.index
  rw [List.length_append, List.length_dropLast] at hstop
  have hstart' : token'.span.start.index.toNat = pre'.length := by
    rw [(Item.span h'.item).1]
    exact (locationAfter_counts hsmall h'.text).1
  constructor
  · rw [UInt32.le_iff_toNat_le]
    omega
  · rw [UInt32.lt_iff_toNat_lt]
    omega

/-- The token that a call returns has the span of its lexeme, and its range comes before those of
all later tokens, exactly when the lexeme is not one of `==`, `<=`, `>=` and `!=`. -/
theorem lexer_span_iff (hsmall : SmallSource source.val)
    (hnext : (lexerNext (lexerAfter source k)).1 = .ok token) (heof : token.type ≠ .tokenEof) :
    ∃ pre used rest, LexemeOf source k pre used rest token ∧
      ((SpanOf token.span pre used ∧
          ∀ j token', k < j → (lexerNext (lexerAfter source j)).1 = .ok token' →
            token'.type ≠ .tokenEof → Precedes token.span token'.span) ↔
        used ∉ doubleLexemes) := by
  obtain ⟨pre, used, rest, h⟩ := exists_lexemeOf hnext heof
  refine ⟨pre, used, rest, h, fun hspan => (h.spanOf_iff hsmall).mp hspan.1, fun hnot => ?_⟩
  have hspan := (h.spanOf_iff hsmall).mpr hnot
  refine ⟨hspan, fun j token' hkj hnext' heof' => ?_⟩
  obtain ⟨pre', used', rest', h'⟩ := exists_lexemeOf hnext' heof'
  exact h.precedes hsmall h' hkj hspan

end

/-- A short source has few lines and few columns. -/
theorem smallSource_of_length {s : List Char} (h : s.length < 65535) : SmallSource s := by
  refine ⟨?_, ?_⟩
  · have hcount := List.count_le_length (a := '\n') (l := s)
    omega
  · rintro pre line rest rfl -
    simp only [List.length_append] at h
    omega

/-- A source with a token of two characters. -/
def equalSource : Source := ⟨"x == y".toList, by decide⟩

/-- The second token of `equalSource` meets the hypotheses of the theorem. -/
theorem lexer_span_iff_equalSource :
    ∃ token, (lexerNext (lexerAfter equalSource 1)).1 = .ok token ∧
      ∃ pre used rest, LexemeOf equalSource 1 pre used rest token ∧
        ((SpanOf token.span pre used ∧
            ∀ j token', 1 < j → (lexerNext (lexerAfter equalSource j)).1 = .ok token' →
              token'.type ≠ .tokenEof → Precedes token.span token'.span) ↔
          used ∉ doubleLexemes) := by
  have hnext : (lexerNext (lexerAfter equalSource 1)).1 =
      .ok (Token.double .tokenEqual ⟨1, 3, 2⟩) := by
    decide +kernel
  exact ⟨_, hnext, lexer_span_iff (smallSource_of_length (by decide)) hnext (by decide)⟩

/-- The token for `==` at the offset 2 has a span that ends at the offset 0. -/
theorem lexer_span_equalSource :
    SmallSource equalSource.val ∧ ∃ token,
      LexemeOf equalSource 1 "x ".toList "==".toList " y".toList token ∧
        token.span.stop.index = 0 ∧ ¬ SpanOf token.span "x ".toList "==".toList := by
  refine ⟨smallSource_of_length (by decide), Token.double .tokenEqual ⟨1, 3, 2⟩, ?_, rfl,
    fun h => absurd h.stop.index (by decide)⟩
  refine ⟨by decide, by decide +kernel, ?_, by decide +kernel, by decide +kernel⟩
  exact Item.double (c := '=') (o := some .tokenAssign) rfl

end Nucleus.Proofs
