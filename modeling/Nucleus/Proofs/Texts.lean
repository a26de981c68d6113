import Nucleus.Proofs.Alike
import Nucleus.Proofs.Numerals
import Nucleus.Proofs.Operators
import Nucleus.Proofs.Spelling
import Nucleus.Spec.Texts

/-!
# `Nucleus.Proofs.Texts`: the lexer reads what is written

Behind separators, a call of the lexer returns a token for what is written there, when the character
behind it does not extend it (`results_spelled`). One lemma for each kind: an operator is the
longest symbol, a word and a numeral go to where their characters end, a string goes to its quote.

Hence the calls on a text return a token for each of its words in order, and then the end
(`lexesTo_text`), and two texts with the same words have alike results, however they are laid out
(`alikeResults_of_spelled`).
-/

set_option autoImplicit false

namespace Nucleus.Proofs

open Nucleus.Lib
open Nucleus.Vm
open Nucleus.Lang
open Nucleus.Spec

/-! ### The next item -/

section
variable {l : CharStream} {pre s rest : List Char}

/-- In front of a text that is no item the next result is that of an item behind the skipped
characters. A numeral with nothing else right behind it is not rejected. -/
theorem reads_behind (h : Reading l pre (s ++ rest)) (hskip : Skips s rest) (hstop : Stops rest)
    (hne : rest ≠ []) : ∃ r l' used tail, used ++ tail = rest ∧ Item (pre ++ s) used tail r ∧
      NumberOf (pre ++ s) used tail r ∧ Reading l' (pre ++ s ++ used) tail ∧
        streamResults l = r :: streamResults l' := by
  obtain ⟨r, l', hcall, hres⟩ := lexerParseToken_reads h
  rcases hres with ⟨hall, -, -⟩ | ⟨s', used, tail, hsplit, hskip', hitem, hnumber, hread⟩
  · -- a call that skips everything would leave nothing
    have hend := Skips.unique hskip hall hstop stops_nil (List.append_nil _).symm
    exact absurd hend.2 hne
  · have hresults := streamResults_item h hcall hsplit hitem hread
    rw [List.append_assoc] at hsplit
    obtain ⟨rfl, rfl⟩ := Skips.unique hskip hskip' hstop (Item.stops hitem) hsplit
    exact ⟨r, l', used, tail, rfl, hitem, hnumber, hread, hresults⟩

/-- A text that begins with a character of a word, a numeral or a string is not skipped. -/
theorem stops_cons {c : Char} (hspace : isSpace c = false)
    (hstarts : ¬ startsNothing c) (hdash : c ≠ '-') : Stops (c :: rest) := by
  refine ⟨?_, ?_, ?_⟩
  · intro d hd
    cases hd
    exact hspace
  · intro d hd
    cases hd
    exact hstarts
  · intro tail heq
    exact hdash (List.cons.inj heq).1

/-- A word is not skipped. -/
theorem stops_ident {c : Char} (hc : identifierChar c = true) : Stops (c :: rest) := by
  have hspace : isSpace c = false := by
    -- a space is no identifier character, and reading keeps the class of a character
    by_contra hne
    rw [Bool.not_eq_false, isSpace, decide_eq_true_eq] at hne
    rw [← identifierChar_readChar, hne] at hc
    exact absurd hc (by decide)
  refine stops_cons hspace ?_ (ne_of_identifierChar hc).1
  rintro ⟨-, -, -, -, -, hident⟩
  rw [hc] at hident
  cases hident

end

/-- Two ways to cut a text behind its characters of one class are one. -/
theorem eq_of_run {p : Char → Bool} {used tail chars rest : List Char}
    (hsplit : used ++ tail = chars ++ rest) (hused : ∀ c ∈ used, p c = true)
    (htail : ∀ c ∈ tail.head?, p c = false) (hchars : ∀ c ∈ chars, p c = true)
    (hrest : ∀ c ∈ rest.head?, p c = false) : used = chars ∧ tail = rest := by
  have hrun : ∀ {a b : List Char}, (∀ c ∈ a, p c = true) → (∀ c ∈ b.head?, p c = false) →
      (a ++ b).takeWhile p = a := by
    intro a b ha hb
    rw [List.takeWhile_append_of_pos ha]
    cases b with
    | nil => simp
    | cons c b => rw [List.takeWhile_cons_of_neg (by simp [hb c rfl]), List.append_nil]
  have hsame : used = chars := by
    rw [← hrun hused htail, hsplit, hrun hchars hrest]
  subst hsame
  exact ⟨rfl, List.append_cancel_left hsplit⟩

/-! ### Words -/

/-- What a word means does not depend on the characters behind it, but for `and`. -/
theorem spelling_own (w rest : List Char) :
    (spelling w rest).1 = (spelling w []).1 ∧
      (spelling w rest).2.own = (spelling w []).2.own := by
  refine ⟨spelling_type w rest [], ?_⟩
  unfold spelling
  cases firstMatch (fun k => k.toList = w) keywords with
  | some t => rfl
  | none =>
      cases firstMatch (fun k => k.toList = w) literalWords with
      | some l => rfl
      | none =>
          cases firstMatch (fun k => k.toList = w) primitiveNames with
          | some p => rfl
          | none => simp [TokenValue.own, SourceString.own, SourceString.text]

/-- The token of a word by what follows it. -/
theorem wordToken_says {w : Word} {tail : List Char} (hnul : '\x00' ∉ tail)
    (hlast : tail = [] → w.chars ∉ andPrefixes) :
    (wordToken (w.chars ++ tail) w.chars.length).1 = (Spelled.word w).means.1 ∧
      (wordToken (w.chars ++ tail) w.chars.length).2.own = (Spelled.word w).means.2.own := by
  have hw : '\x00' ∉ w.chars := Spelled.nul_not_mem (.word w)
  rw [Spelled.means]
  by_cases hand : w.chars = "and".toList
  · -- something follows, so the comparison with `and` fails
    have htail : tail ≠ [] := fun hnil => hlast hnil (by rw [hand]; decide)
    rw [if_pos hand, hand, wordToken_and hnul htail]
    exact ⟨rfl, by simp [TokenValue.own, SourceString.own, SourceString.text, wholeString]⟩
  · have hread : ¬ Misread w.chars tail := by
      rintro (⟨heq, -⟩ | ⟨hpre, rfl⟩)
      · exact hand heq
      · refine hlast rfl ?_
        rcases hpre with heq | heq <;> (rw [heq]; decide)
    rw [if_neg hand, wordToken_of_not_misread hw hnul w.ne_nil hread]
    exact spelling_own w.chars tail

/-! ### Numerals -/

/-- The digits in front of what is no digit are the whole numeral. -/
theorem numeralPrefix_digits {s tail : List Char} (hasDot : Bool)
    (hs : ∀ c ∈ s, numericChar c = true)
    (htail : ∀ c ∈ tail.head?, identifierChar c = false ∧ c ≠ '.') :
    numeralPrefix hasDot (s ++ tail) = s := by
  induction s with
  | nil =>
      cases tail with
      | nil => rfl
      | cons c tail =>
          obtain ⟨hident, hdot⟩ := htail c rfl
          have hnum : ¬ numericChar c = true := by simp [numericChar_of_identifierChar hident]
          show numeralPrefix hasDot (c :: tail) = []
          rw [numeralPrefix, if_neg hnum, if_neg fun h => hdot h.1]
  | cons c s ih =>
      rw [List.cons_append, numeralPrefix, if_pos (hs c List.mem_cons_self),
        ih fun d hd => hs d (List.mem_cons_of_mem c hd)]

/-- A numeral ends where its characters end. -/
theorem Numeral.prefix_eq {n : Numeral} {tail : List Char}
    (htail : ∀ c ∈ tail.head?, identifierChar c = false ∧ c ≠ '.') :
    numeralPrefix false (n.chars ++ tail) = n.chars := by
  unfold Numeral.chars
  cases hfrac : n.frac with
  | none => exact numeralPrefix_digits false n.digits htail
  | some fp =>
      have hplaces := numeralPrefix_digits true (n.places fp hfrac).2 htail
      have hwhole : ∀ s : List Char, (∀ c ∈ s, numericChar c = true) →
          numeralPrefix false (s ++ '.' :: (fp ++ tail)) = s ++ '.' :: fp := by
        intro s hs
        induction s with
        | nil =>
            show numeralPrefix false ('.' :: (fp ++ tail)) = '.' :: fp
            rw [numeralPrefix, if_neg (by decide), if_pos ⟨rfl, rfl⟩, hplaces]
        | cons c s ih =>
            rw [List.cons_append, numeralPrefix, if_pos (hs c List.mem_cons_self),
              ih fun d hd => hs d (List.mem_cons_of_mem c hd), List.cons_append]
      simpa using hwhole n.whole n.digits

/-- The token of a numeral. -/
theorem numberToken_literal (n : Numeral) (span : Span) (tail : List Char) :
    numberToken span (n.chars ++ tail) n.chars.length (decide ('.' ∈ n.chars)) =
      .ok ⟨.tokenLiteral, span, .literal n.literal⟩ := by
  unfold Numeral.chars Numeral.literal
  cases hfrac : n.frac with
  | none =>
      have hdot : '.' ∉ n.whole := dot_notMem n.digits
      show numberToken span (n.whole ++ tail) n.whole.length (decide ('.' ∈ n.whole)) = _
      rw [decide_eq_false hdot]
      exact numberToken_digits n.digits (Nat.lt_trans n.short (by decide)) span tail
  | some fp =>
      obtain ⟨hlen, hfp⟩ := n.places fp hfrac
      obtain ⟨v, hparse, hv⟩ := fparse_decimal n.digits hfp hlen tail
      have hdot : '.' ∈ n.whole ++ '.' :: fp := by simp
      show numberToken span (n.whole ++ '.' :: fp ++ tail) (n.whole ++ '.' :: fp).length
        (decide ('.' ∈ n.whole ++ '.' :: fp)) = _
      have hval : v = UInt32.ofNat (digitsValue n.whole % 2 ^ 16 * 2 ^ 16 +
          digitsValue fp * 2 ^ 16 / 10 ^ fp.length) := by
        rw [← hv, UInt32.ofNat_toNat]
      -- the characters are few enough for the index of the loops
      have hcount : (n.whole ++ '.' :: fp).length < 2 ^ 32 := by
        have hshort := n.short
        rw [List.length_append, List.length_cons]
        omega
      have hcall := fparseCall_of_lt (s := n.whole ++ '.' :: fp ++ tail) (v := 0) hcount
        (lt_digitTurns _)
      rw [hparse] at hcall
      rw [decide_eq_true hdot, numberToken, if_pos rfl, hcall, hval]
      rfl

/-! ### What is written -/

/-- The operator that the lexer finds for a symbol. -/
theorem lexedType_eq_lexed (op : Operator) : lexedType op = op.lexed := by
  cases op <;> rfl

/-- A token that stands for a symbol stores no value. -/
theorem value_of_symbol {loc : Location} {c : Char} {tail used : List Char} {token : Token}
    (h : symbol loc c tail = (used, .ok token)) : token.value = .none := by
  unfold symbol at h
  split at h
  · cases h
    rfl
  · split at h
    · cases h
      rfl
    · split at h
      · cases h
        rfl
      · cases h
  · cases h
    rfl

section
variable {pre used rest tail : List Char} {r : LexResult}

/-- The item at an operator that nothing extends. -/
theorem item_operator {op : Operator} (hitem : Item pre used rest r)
    (hsplit : used ++ rest = op.spelling ++ tail) (htail : ∀ d ∈ tail.head?, ¬ op.Extends d) :
    used = op.spelling ∧ ∃ token, r = .ok token ∧ Tells token (.operator op) := by
  obtain ⟨c, more, hlead⟩ := exists_leads op
  have hchars : used ++ rest = c :: (more ++ tail) := by
    rw [hsplit, hlead.spelling]
    rfl
  have hsymbol := Item.eq_symbol hitem hchars hlead.ident hlead.quote
  obtain ⟨token, hop, htype⟩ := symbol_operator hlead htail (locationAfter pre)
  have hvalue := value_of_symbol hop
  rw [hop] at hsymbol
  obtain ⟨rfl, rfl⟩ := Prod.mk.inj hsymbol
  refine ⟨rfl, token, rfl, ?_, ?_⟩
  · rw [htype, lexedType_eq_lexed]
    rfl
  · rw [hvalue]
    rfl

/-- An item that begins with a letter, an underscore or a digit is a word or belongs to a numeral.
-/
theorem item_ident {c : Char} {more : List Char} (hitem : Item pre used rest r)
    (hsplit : used ++ rest = c :: more) (hc : identifierChar c = true) :
    (numericChar c = false ∧ (∀ d ∈ used, identifierChar d = true) ∧
        (∀ d ∈ rest.head?, identifierChar d = false) ∧
        r = .ok ⟨(wordToken (used ++ rest) used.length).1,
          ⟨locationAfter pre, locationAfter (pre ++ used.dropLast)⟩,
          (wordToken (used ++ rest) used.length).2⟩) ∨
      (numericChar c = true ∧ used ≠ [] ∧ numeralPrefix false (used ++ rest) = used) := by
  -- no symbol and no string begins with such a character
  cases hitem with
  | word hnum hall hhead =>
      obtain ⟨rfl, -⟩ := List.cons.inj hsplit
      exact Or.inl ⟨hnum, hall, hhead, rfl⟩
  | number hnum hpre =>
      obtain ⟨rfl, -⟩ := List.cons.inj hsplit
      exact Or.inr ⟨hnum, List.cons_ne_nil _ _, hpre⟩
  | badNumber hnum hpre =>
      obtain ⟨rfl, -⟩ := List.cons.inj hsplit
      exact Or.inr ⟨hnum, List.cons_ne_nil _ _, hpre⟩
  | single hd =>
      obtain ⟨rfl, -⟩ := List.cons.inj hsplit
      rw [identifierChar_single hd] at hc
      cases hc
  | double hd =>
      obtain ⟨rfl, -⟩ := List.cons.inj hsplit
      rw [identifierChar_double hd] at hc
      cases hc
  | half hd =>
      obtain ⟨rfl, -⟩ := List.cons.inj hsplit
      rw [identifierChar_double hd] at hc
      cases hc
  | bang hd =>
      obtain ⟨rfl, -⟩ := List.cons.inj hsplit
      rw [identifierChar_double hd] at hc
      cases hc
  | sub =>
      obtain ⟨rfl, -⟩ := List.cons.inj hsplit
      exact absurd hc (by decide)
  | string =>
      obtain ⟨rfl, -⟩ := List.cons.inj hsplit
      exact absurd hc (by decide)
  | openString =>
      obtain ⟨rfl, -⟩ := List.cons.inj hsplit
      exact absurd hc (by decide)

/-- The item at a word goes to the end of its characters. -/
theorem item_word {w : Word} (hitem : Item pre used rest r)
    (hsplit : used ++ rest = w.chars ++ tail) (htail : ∀ d ∈ tail.head?, identifierChar d = false)
    (hnul : '\x00' ∉ tail) (hlast : tail = [] → w.chars ∉ andPrefixes) :
    used = w.chars ∧ ∃ token, r = .ok token ∧ Tells token (.word w) := by
  obtain ⟨c, more, hchars⟩ := List.exists_cons_of_ne_nil w.ne_nil
  have hc : identifierChar c = true := w.ident c (by rw [hchars]; exact List.mem_cons_self)
  have hnum : numericChar c = false := w.start c (by rw [hchars]; rfl)
  have hfirst : used ++ rest = c :: (more ++ tail) := by
    rw [hsplit, hchars]
    rfl
  rcases item_ident hitem hfirst hc with ⟨-, hall, hhead, rfl⟩ | ⟨hdigit, -, -⟩
  · obtain ⟨rfl, rfl⟩ := eq_of_run hsplit hall hhead w.ident htail
    obtain ⟨htype, hvalue⟩ := wordToken_says hnul hlast
    exact ⟨rfl, _, rfl, htype, hvalue⟩
  · rw [hnum] at hdigit
    cases hdigit

/-- The first character of a numeral is a digit. -/
theorem Numeral.exists_cons (n : Numeral) :
    ∃ c more, n.chars = c :: more ∧ numericChar c = true := by
  obtain ⟨c, more, hwhole⟩ := List.exists_cons_of_ne_nil n.ne_nil
  have hc : numericChar c = true := n.digits c (by rw [hwhole]; exact List.mem_cons_self)
  unfold Numeral.chars
  cases n.frac with
  | none => exact ⟨c, more, hwhole, hc⟩
  | some fp => exact ⟨c, more ++ '.' :: fp, by rw [hwhole]; rfl, hc⟩

/-- The item at a numeral goes to the end of its characters, and it is not rejected. -/
theorem item_numeral {n : Numeral} (hitem : Item pre used rest r)
    (hnumber : NumberOf pre used rest r)
    (hsplit : used ++ rest = n.chars ++ tail)
    (htail : ∀ d ∈ tail.head?, identifierChar d = false ∧ d ≠ '.') :
    used = n.chars ∧ ∃ token, r = .ok token ∧ Tells token (.numeral n) := by
  obtain ⟨c, more, hchars, hc⟩ := Numeral.exists_cons n
  have hfirst : used ++ rest = c :: (more ++ tail) := by
    rw [hsplit, hchars]
    rfl
  rcases item_ident hitem hfirst (identifierChar_of_numericChar hc) with
    ⟨hnum, -, -, -⟩ | ⟨-, -, hpre⟩
  · rw [hc] at hnum
    cases hnum
  · have hsame : used = n.chars := by
      rw [← hpre, hsplit, Numeral.prefix_eq htail]
    subst hsame
    obtain rfl := List.append_cancel_left hsplit
    have htoken := hnumber c (by rw [hchars]; rfl) hc fun d hd => ⟨(htail d hd).2, (htail d hd).1⟩
    rw [numberToken_literal] at htoken
    exact ⟨rfl, _, htoken, rfl, rfl⟩

/-- The item at a string goes to its closing quote. -/
theorem item_string {body : StringText} (hitem : Item pre used rest r)
    (hsplit : used ++ rest = '\'' :: (body.val ++ ['\'']) ++ tail) :
    used = '\'' :: (body.val ++ ['\'']) ∧ ∃ token, r = .ok token ∧ Tells token (.string body) := by
  have hfirst : ∀ {d : Char} {s : List Char},
      d :: s ++ rest = '\'' :: (body.val ++ ['\'']) ++ tail → d = '\'' :=
    fun heq => (List.cons.inj heq).1
  cases hitem with
  | @string b _ hb =>
      -- both bodies are what stands in front of the first quote
      have hbody : b ++ '\'' :: rest = body.val ++ '\'' :: tail := by simpa using hsplit
      have hplain : ∀ {s : List Char}, '\'' ∉ s → ∀ c ∈ s, decide (c ≠ '\'') = true := by
        intro s hs c hc
        rw [decide_eq_true_eq]
        rintro rfl
        exact hs hc
      obtain ⟨rfl, htail⟩ := eq_of_run (p := fun c => decide (c ≠ '\'')) hbody (hplain hb)
        (by simp) (hplain body.property.1) (by simp)
      refine ⟨rfl, _, rfl, rfl, ?_⟩
      simp [Spelled.means, TokenValue.own, Literal.own, SourceString.own, SourceString.text,
        wholeString]
  | @openString b hb =>
      have hmem : '\'' ∈ b := by
        have hb' : b = body.val ++ '\'' :: tail := by simpa using hsplit
        rw [hb']
        exact List.mem_append_right _ List.mem_cons_self
      exact absurd hmem hb
  | single hd =>
      obtain rfl := hfirst hsplit
      cases hd
  | double hd =>
      obtain rfl := hfirst hsplit
      cases hd
  | half hd =>
      obtain rfl := hfirst hsplit
      cases hd
  | bang hd =>
      obtain rfl := hfirst hsplit
      cases hd
  | sub => exact absurd (hfirst hsplit) (by decide)
  | number hd =>
      obtain rfl := hfirst hsplit
      exact absurd hd (by decide)
  | badNumber hd =>
      obtain rfl := hfirst hsplit
      exact absurd hd (by decide)
  | word _ hall =>
      obtain rfl := hfirst hsplit
      exact absurd (hall _ List.mem_cons_self) (by decide)

end

/-- What is spelled is not skipped, when the character behind it does not extend it. -/
theorem Spelled.stops (w : Spelled) {tail : List Char} (htail : ∀ d ∈ tail.head?, ¬ w.Extends d) :
    Stops (w.text ++ tail) := by
  cases w with
  | operator op =>
      obtain ⟨c, more, hlead⟩ := exists_leads op
      exact operator_stops hlead htail
  | word w =>
      obtain ⟨c, more, hchars⟩ := List.exists_cons_of_ne_nil w.ne_nil
      have hc : identifierChar c = true := w.ident c (by rw [hchars]; exact List.mem_cons_self)
      show Stops (w.chars ++ tail)
      rw [hchars]
      exact stops_ident hc
  | numeral n =>
      obtain ⟨c, more, hchars, hc⟩ := Numeral.exists_cons n
      show Stops (n.chars ++ tail)
      rw [hchars]
      exact stops_ident (identifierChar_of_numericChar hc)
  | string body =>
      -- a quote begins a string
      show Stops ('\'' :: (body.val ++ ['\'']) ++ tail)
      exact stops_cons (by decide) (by decide) (by decide)

/-- Nothing is spelled without a character. -/
theorem Spelled.text_ne_nil (w : Spelled) : w.text ≠ [] := by
  cases w with
  | operator op => cases op <;> exact List.cons_ne_nil _ _
  | word w => exact w.ne_nil
  | numeral n =>
      obtain ⟨c, more, hchars, -⟩ := Numeral.exists_cons n
      show n.chars ≠ []
      rw [hchars]
      exact List.cons_ne_nil _ _
  | string body => exact List.cons_ne_nil _ _

/-- Behind separators, the next result is a token for what is written there. -/
theorem results_spelled {l : CharStream} {pre tail : List Char} {gap : List Separator} {w : Spelled}
    (h : Reading l pre (gapText gap ++ (w.text ++ tail)))
    (htail : ∀ d ∈ tail.head?, ¬ w.Extends d) (hlast : tail = [] → ¬ w.Anded) :
    ∃ token l', streamResults l = .ok token :: streamResults l' ∧ Tells token w ∧
      Reading l' (pre ++ gapText gap ++ w.text) tail := by
  have hne : w.text ++ tail ≠ [] := by simp [Spelled.text_ne_nil w]
  have hnul : '\x00' ∉ tail := by
    intro hmem
    refine l.source.property ?_
    rw [h.text]
    simp [hmem]
  obtain ⟨r, l', used, rest, hsplit, hitem, hnumber, hread, hresults⟩ :=
    reads_behind h (gapText_skips gap _) (Spelled.stops w htail) hne
  -- the item ends where the spelling does: no character behind it extends it
  have hitem' : used = w.text ∧ ∃ token, r = .ok token ∧ Tells token w := by
    cases w with
    | operator op => exact item_operator hitem hsplit htail
    | word w =>
        refine item_word hitem hsplit (fun d hd => Bool.eq_false_iff.mpr (htail d hd)) hnul ?_
        exact fun hnil hmem => hlast hnil ⟨w, rfl, hmem⟩
    | numeral n =>
        refine item_numeral hitem hnumber hsplit fun d hd => ?_
        have hext : ¬ (identifierChar d = true ∨ d = '.') := htail d hd
        rw [not_or, Bool.not_eq_true] at hext
        exact hext
    | string body => exact item_string hitem hsplit
  obtain ⟨rfl, token, rfl, htells⟩ := hitem'
  obtain rfl := List.append_cancel_left hsplit
  exact ⟨token, l', hresults, htells, hread⟩

/-! ### Texts -/

/-- The dash of a comment does not extend anything but a `-`, and no space extends anything. -/
theorem Spelled.not_extends_gap {w : Spelled} {s : Separator} {gap : List Separator}
    {tail : List Char} (hkept : ∀ body, w = .operator .sub → s ≠ .comment body) :
    ∀ d ∈ (gapText (s :: gap) ++ tail).head?, ¬ w.Extends d := by
  intro d hd hext
  obtain ⟨heq, hdash⟩ := gapText_head hd
  have hclass : identifierChar d = false ∧ d ≠ '.' := by
    cases s with
    | space => cases hd; decide
    | newline => cases hd; decide
    | comment body => cases hd; decide
  cases w with
  | operator op =>
      -- an operator goes on with `=`, or it is `-` in front of a comment
      rcases hext with ⟨rfl, -⟩ | ⟨rfl, hsub⟩
      · exact heq rfl
      · obtain ⟨body, rfl⟩ := hdash rfl
        exact hkept body (by rw [hsub]) rfl
  | word w => exact Bool.eq_false_iff.mp hclass.1 hext
  | numeral n =>
      rcases hext with hident | rfl
      · exact Bool.eq_false_iff.mp hclass.1 hident
      · exact hclass.2 rfl
  | string body => exact hext

/-- What stands behind a word of a text does not extend it. -/
theorem not_extends_next {w : Spaced} {ws : List Spaced}
    (hapart : (w :: ws).IsChain fun w next => w.gap = [] → ¬ w.spelled.Merges next.spelled)
    (hkept : ¬ w.Swallowed) :
    ∀ d ∈ (gapText w.gap ++ ws.flatMap Spaced.text).head?, ¬ w.spelled.Extends d := by
  cases hgap : w.gap with
  | nil =>
      intro d hd hext
      cases ws with
      | nil => cases hd
      | cons next ws =>
          -- the next word stands right behind this one
          obtain ⟨c, more, htext⟩ := List.exists_cons_of_ne_nil (Spelled.text_ne_nil next.spelled)
          have hhead : next.spelled.text.head? = some d := by
            rw [List.flatMap_cons, Spaced.text, htext] at hd
            rw [htext]
            exact hd
          have hmerge := (List.isChain_cons_cons.mp hapart).1 hgap
          exact hmerge ⟨d, hhead, hext⟩
  | cons s gap =>
      refine Spelled.not_extends_gap ?_
      rintro body hsub rfl
      exact hkept ⟨hsub, body, gap, hgap⟩

/-- What the calls return on the words of a text: by induction on the words, behind any
separators. -/
theorem results_words : ∀ {ws : List Spaced} {lead : List Separator} {l : CharStream}
    {pre : List Char},
    (ws.IsChain fun w next => w.gap = [] → ¬ w.spelled.Merges next.spelled) →
    (∀ w ∈ ws, ¬ w.Swallowed) → (∀ w ∈ ws.getLast?, w.gap = [] → ¬ w.spelled.Anded) →
    Reading l pre (gapText lead ++ ws.flatMap Spaced.text) →
    ∃ tokens : List Token, streamResults l = tokens.map .ok ∧
      List.Forall₂ Tells tokens (ws.map (·.spelled)) := by
  intro ws
  induction ws with
  | nil =>
      intro lead l pre _ _ _ h
      rw [List.flatMap_nil, List.append_nil] at h
      exact ⟨[], results_nothing h (gapText_skips lead []), .nil⟩
  | cons w ws ih =>
      intro lead l pre hapart hkept hlast h
      rw [List.forall_mem_cons] at hkept
      rw [List.flatMap_cons, Spaced.text, List.append_assoc] at h
      have hend : gapText w.gap ++ ws.flatMap Spaced.text = [] → ¬ w.spelled.Anded := by
        intro hnil
        obtain ⟨hgap, hws⟩ := List.append_eq_nil_iff.mp hnil
        -- nothing is written behind the last word
        have hempty : ws = [] := by
          cases ws with
          | nil => rfl
          | cons next ws =>
              rw [List.flatMap_cons, Spaced.text] at hws
              simp [Spelled.text_ne_nil next.spelled] at hws
        have hgap' : w.gap = [] := by
          cases hw : w.gap with
          | nil => rfl
          | cons s gap =>
              rw [hw] at hgap
              cases s <;> cases hgap
        subst hempty
        exact hlast w rfl hgap'
      obtain ⟨token, l', hresults, htells, hread⟩ :=
        results_spelled h (not_extends_next hapart hkept.1) hend
      have hlast' : ∀ v ∈ ws.getLast?, v.gap = [] → ¬ v.spelled.Anded := by
        intro v hv
        refine hlast v ?_
        cases ws with
        | nil => cases hv
        | cons next ws => rwa [List.getLast?_cons_cons]
      obtain ⟨tokens, htokens, hall⟩ := ih hapart.of_cons hkept.2 hlast' hread
      refine ⟨token :: tokens, ?_, .cons htells hall⟩
      rw [hresults, htokens]
      rfl

/-- The results of a text are tokens for its words. -/
theorem resultsOf_text (t : Text) :
    ∃ tokens : List Token, resultsOf t.source = tokens.map .ok ∧
      List.Forall₂ Tells tokens t.spelled :=
  results_words t.apart t.kept t.last (reading_streamInit t.source)

/-! ### The layout makes no difference -/

/-- Tokens for the same words are alike. -/
theorem alike_of_tells {u v : Token} {w : Spelled} (hu : Tells u w) (hv : Tells v w)
    (hslice : u.type = .tokenIdentifier → u.value.toIdentifier.IsSlice)
    (hslice' : v.type = .tokenIdentifier → v.value.toIdentifier.IsSlice) : u.Alike v where
  type := hu.type.trans hv.type.symm
  value := hu.value.trans hv.value.symm
  slices htype := ⟨hslice htype, hslice' (hv.type.trans (hu.type.symm.trans htype))⟩

/-- Two lists of tokens that tell the same words are alike. -/
theorem forall₂_alike : ∀ {us vs : List Token} {ws : List Spelled},
    List.Forall₂ Tells us ws → List.Forall₂ Tells vs ws →
    (∀ u ∈ us, u.type = .tokenIdentifier → u.value.toIdentifier.IsSlice) →
    (∀ v ∈ vs, v.type = .tokenIdentifier → v.value.toIdentifier.IsSlice) →
    AlikeResults (us.map .ok) (vs.map .ok) := by
  intro us vs ws hu
  induction hu generalizing vs with
  | nil =>
      intro hv _ _
      cases hv
      exact .nil
  | cons hhead _ ih =>
      intro hv hslices hslices'
      cases hv with
      | cons hhead' htail' =>
          rw [List.forall_mem_cons] at hslices hslices'
          exact .cons (.ok (alike_of_tells hhead hhead' hslices.1 hslices'.1))
            (ih htail' hslices.2 hslices'.2)

/-- The identifiers that the lexer reads are slices of the source. -/
theorem slices_resultsOf {source : Source} {tokens : List Token}
    (h : resultsOf source = tokens.map .ok) :
    ∀ u ∈ tokens, u.type = .tokenIdentifier → u.value.toIdentifier.IsSlice := by
  intro u hmem htype
  have hmem' : .ok u ∈ resultsOf source := by
    rw [h]
    exact List.mem_map_of_mem hmem
  exact isSlice_of_mem_resultsOf hmem' htype

/-- Two texts with the same words have alike results. -/
theorem alikeResults_of_spelled {t t' : Text} (h : t.spelled = t'.spelled) :
    AlikeResults (resultsOf t.source) (resultsOf t'.source) := by
  obtain ⟨us, hus, hu⟩ := resultsOf_text t
  obtain ⟨vs, hvs, hv⟩ := resultsOf_text t'
  rw [← h] at hv
  rw [hus, hvs]
  exact forall₂_alike hu hv (slices_resultsOf hus) (slices_resultsOf hvs)

theorem wordLike_let : wordLike "let".toList = true := rfl

theorem wordLike_a : wordLike "a".toList = true := rfl

theorem wholeLike_one : wholeLike ['1'] = true := rfl

theorem not_newline_one : '\n' ∉ "one".toList ∧ '\x00' ∉ "one".toList := by decide

/-- The words of `let a = 1`. -/
def letWords : List Spelled :=
  [.word (.ofChars "let".toList wordLike_let), .word (.ofChars "a".toList wordLike_a),
    .operator .assign, .numeral (.ofDigits ['1'] wholeLike_one)]

/-- `let a=1`, with a comment behind it. -/
def letSpaced : List Spaced :=
  [⟨.word (.ofChars "let".toList wordLike_let), [.space]⟩,
    ⟨.word (.ofChars "a".toList wordLike_a), []⟩, ⟨.operator .assign, []⟩,
    ⟨.numeral (.ofDigits ['1'] wholeLike_one), [.space, .comment ⟨"one".toList, not_newline_one⟩]⟩]

theorem letSpaced_apart :
    letSpaced.IsChain fun w next => w.gap = [] → ¬ w.spelled.Merges next.spelled := by
  have hassign : identifierChar '=' = false := by decide
  simp [letSpaced, Spelled.Merges, Spelled.Extends, Spelled.text, Operator.spelling,
    Operator.Extends, Numeral.chars, Numeral.ofDigits, hassign]

theorem letSpaced_kept : ∀ w ∈ letSpaced, ¬ w.Swallowed := by
  intro w hw
  rintro ⟨hsub, -⟩
  simp only [letSpaced, List.mem_cons, List.not_mem_nil, or_false] at hw
  rcases hw with rfl | rfl | rfl | rfl <;> cases hsub

theorem letSpaced_last : ∀ w ∈ letSpaced.getLast?, w.gap = [] → ¬ w.spelled.Anded := by
  intro w hw hnil
  cases hw
  cases hnil

/-- The text of these, on a line of its own. -/
def letText : Text := ⟨[.newline], letSpaced, letSpaced_apart, letSpaced_kept, letSpaced_last⟩

end Nucleus.Proofs
