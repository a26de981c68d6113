import Nucleus.Proofs.Literals
import Nucleus.Proofs.Words

/-!
# `Nucleus.Proofs.Numerals`: the call that reads a numeral

A numeral is read like a word: no call skips its first digit or has it inside its token
(`reads_numeral`). The call that reads it gives the literal of `nu_iparse` or `nu_fparse`, if
nothing behind the numeral makes it an error.

With `Nucleus.Proofs.Literals` this says when a numeral means what it says (`lexer_numeral_iff`).
-/

set_option autoImplicit false

namespace Nucleus.Proofs

open Nucleus.Vm
open Nucleus.Lang
open Nucleus.Spec

/-! ### Runs -/

/-- Behind the run `r`, the characters `s` are read like outside words and numerals. -/
def Starts (r : Run) (s : List Char) : Prop := ∀ c ∈ s.head?, r.step c = Run.other.step c

/-- Every text may follow what is no numeral and no word. -/
theorem starts_other (s : List Char) : Starts .other s := fun _ _ => rfl

/-- The run over a text is the same from its own start. -/
theorem Starts.run {r : Run} {s t : List Char} (h : Starts r (s ++ t)) (hs : s ≠ []) :
    runAfter r s = runAfter .other s := by
  cases s with
  | nil => exact absurd rfl hs
  | cons c s => rw [runAfter_cons, runAfter_cons, h c rfl]

/-- A character that is no letter, no digit and no dot ends a run. -/
theorem Run.step_gap {c : Char} (hc : identifierChar c = false) (hdot : c ≠ '.') (r : Run) :
    r.step c = .other := by
  have hnum : numericChar c = false := numericChar_of_identifierChar hc
  rw [Run.step, if_neg (by simp [hnum]), if_neg (by simp [hc]), if_neg fun h => hdot h.1]

/-- No letter and no digit starts no run. -/
theorem Run.step_other {c : Char} (hc : identifierChar c = false) : Run.other.step c = .other := by
  by_cases hdot : c = '.'
  · subst hdot
    rfl
  · exact Run.step_gap hc hdot .other

/-- A digit begins a numeral, or goes on with what has begun. -/
theorem Run.step_digit {c : Char} (hc : numericChar c = true) (r : Run) :
    r.step c = if r = .other then .integer else r := if_pos hc

/-- A word goes on with identifier characters. -/
theorem Run.step_word {c : Char} (hc : identifierChar c = true) : Run.word.step c = .word := by
  by_cases hnum : numericChar c = true
  · rw [Run.step_digit hnum, if_neg (by decide)]
  · rw [Run.step, if_neg hnum, if_pos hc]

/-- Only a digit and the dot of a numeral go on with a run. -/
theorem Run.step_apart {r : Run} {c : Char} (hnum : numericChar c = false)
    (hdot : ¬ (c = '.' ∧ r = .integer)) : r.step c = Run.other.step c := by
  have hother : ¬ (c = '.' ∧ Run.other = Run.integer) := by simp
  have hdigit : ¬ numericChar c = true := by simp [hnum]
  rw [Run.step, Run.step, if_neg hdigit, if_neg hdigit, if_neg hdot, if_neg hother]

/-- What a call skips ends in a gap. -/
theorem Skips.run {s rest : List Char} (h : Skips s rest) (hne : rest ≠ []) :
    runAfter .other s = .other := by
  induction h with
  | nil => rfl
  | @space c s rest hc _ ih =>
      have hident : identifierChar c = false := by
        simp only [isSpace, decide_eq_true_eq] at hc
        rw [← identifierChar_readChar, hc]
        decide
      rw [runAfter_cons, Run.step_other hident]
      exact ih hne
  | @comment body s rest hbody _ ih =>
      rw [runAfter_cons, runAfter_cons, runAfter_append, runAfter_cons,
        Run.step_gap (by decide) (by decide)]
      exact ih hne
  | lastComment => exact absurd rfl hne
  | @nothing c s rest hc _ ih =>
      obtain ⟨hsingle, -, -, -, -, hident⟩ := hc
      rw [runAfter_cons, Run.step_other hident]
      exact ih hne

/-- The run behind skipped characters and a part of the item behind them. -/
theorem run_of_item {done s t u : List Char}
    (hstart : Starts (runAfter .other done) (s ++ (t ++ u)))
    (hskip : Skips s (t ++ u)) (ht : t ≠ []) :
    runAfter .other (done ++ (s ++ t)) = runAfter .other t := by
  rw [← List.append_assoc] at hstart
  have hne : t ++ u ≠ [] := by simp [ht]
  rw [runAfter_append, hstart.run (by simp [ht]), runAfter_append, Skips.run hskip hne]

/-! ### Runs of items -/

/-- The run of a numeral. -/
def numeralRun (hasDot : Bool) : Run := if hasDot then .decimal else .integer

/-- The run behind a part of a numeral. -/
theorem Ends.run {a b rest : List Char} {hasDot : Bool} (h : Ends hasDot (a ++ b) rest) :
    ∃ hasDot', runAfter (numeralRun hasDot) a = numeralRun hasDot' ∧ Ends hasDot' b rest := by
  induction a generalizing hasDot with
  | nil => exact ⟨hasDot, rfl, h⟩
  | cons c a ih =>
      rcases Ends.cons h with ⟨hnum, ha⟩ | ⟨rfl, rfl, ha⟩
      · have hstep : (numeralRun hasDot).step c = numeralRun hasDot := by
          rw [Run.step_digit hnum, if_neg]
          cases hasDot <;> decide
        rw [runAfter_cons, hstep]
        exact ih ha
      · rw [runAfter_cons]
        exact ih ha

/-- The run behind a part of a numeral that has its first digit. -/
theorem Ends.run_digit {a b rest : List Char} {c : Char} (hc : numericChar c = true)
    (h : Ends false (c :: a ++ b) rest) :
    ∃ hasDot, runAfter .other (c :: a) = numeralRun hasDot ∧ Ends hasDot b rest := by
  have hfirst : runAfter .other (c :: a) = runAfter (numeralRun false) (c :: a) := by
    rw [runAfter_cons, runAfter_cons, Run.step_digit hc, Run.step_digit hc]
    rfl
  rw [hfirst]
  exact Ends.run h

/-- Behind a numeral no digit follows, and no dot that belongs to it. -/
theorem Ends.starts {rest : List Char} {hasDot : Bool} (h : Ends hasDot [] rest) :
    Starts (numeralRun hasDot) rest := by
  intro c hc
  cases rest with
  | nil => cases hc
  | cons d rest =>
      obtain rfl : d = c := Option.some.inj hc
      simp only [Ends, List.nil_append, numeralPrefix] at h
      have hnum : numericChar d = false := by
        by_contra hnum
        rw [if_pos (by simpa using hnum)] at h
        cases h
      rw [if_neg (by simp [hnum])] at h
      refine Run.step_apart hnum ?_
      rintro ⟨rfl, hrun⟩
      cases hasDot with
      | true => cases hrun
      | false => cases h

/-- The run behind a part of a word. -/
theorem runAfter_word {c : Char} {s : List Char} (hnum : numericChar c = false)
    (hall : ∀ d ∈ c :: s, identifierChar d = true) : runAfter .other (c :: s) = .word := by
  have hfirst : Run.other.step c = .word := by
    rw [Run.step, if_neg (by simp [hnum]), if_pos (hall c (by simp))]
  rw [runAfter_cons, hfirst]
  have hrest : ∀ d ∈ s, identifierChar d = true := fun d hd => hall d (List.mem_cons_of_mem _ hd)
  clear hall hfirst
  induction s with
  | nil => rfl
  | cons d s ih =>
      rw [runAfter_cons, Run.step_word (hrest d (by simp))]
      exact ih fun e he => hrest e (List.mem_cons_of_mem _ he)

/-- Behind an item what is to come starts a run of its own. -/
theorem Item.starts_run {pre used rest : List Char} {r : LexResult} (h : Item pre used rest r)
    (hne : rest ≠ []) : Starts (runAfter .other used) rest := by
  -- an item of characters that start no run
  have hgap : ∀ {s : List Char}, (∀ c ∈ s, identifierChar c = false) →
      Starts (runAfter .other s) rest := by
    intro s hs
    suffices hrun : runAfter .other s = .other by
      rw [hrun]
      exact starts_other rest
    clear h
    induction s with
    | nil => rfl
    | cons c s ih =>
        rw [runAfter_cons, Run.step_other (hs c (by simp))]
        exact ih fun d hd => hs d (List.mem_cons_of_mem _ hd)
  have hnumeral : ∀ {c : Char} {s : List Char}, numericChar c = true →
      numeralPrefix false (c :: s ++ rest) = c :: s → Starts (runAfter .other (c :: s)) rest := by
    intro c s hc hpre
    have hends : Ends false (c :: s ++ []) rest := by rwa [List.append_nil]
    obtain ⟨hasDot, hrun, hrest⟩ := Ends.run_digit hc hends
    rw [hrun]
    exact hrest.starts
  cases h with
  | single hc => exact hgap (by simpa using identifierChar_single hc)
  | double hc => exact hgap (by simpa using ⟨identifierChar_double hc, by decide⟩)
  | half hc _ => exact hgap (by simpa using identifierChar_double hc)
  | bang hc _ => exact hgap (by simpa using identifierChar_double hc)
  | sub => exact hgap (by simp; decide)
  | @string body _ hbody =>
      have hquote : Run.step (runAfter .other ('\'' :: body)) '\'' = .other :=
        Run.step_gap (by decide) (by decide) _
      rw [← List.cons_append, runAfter_append, runAfter_cons _ '\'', hquote]
      exact starts_other rest
  | openString => exact absurd rfl hne
  | number hc hpre _ => exact hnumeral hc hpre
  | badNumber hc hpre => exact hnumeral hc hpre
  | word hnum hall hhead =>
      rw [runAfter_word hnum hall]
      exact fun d hd =>
        Run.step_apart (numericChar_of_identifierChar (hhead d hd)) fun h => by cases h.2

/-- A digit inside an item is in a string, or in a run that begins before it. -/
theorem Item.inside_digit {pre used rest a b : List Char} {r : LexResult} {c : Char}
    (h : Item pre used rest r) (hused : used = a ++ c :: b) (ha : a ≠ [])
    (hc : numericChar c = true) : modeAfter .code a = .string ∨ runAfter .other a ≠ .other := by
  have hone : ∀ {d : Char}, [d] ≠ a ++ c :: b := singleton_ne_append ha
  -- inside a numeral the run is that of the numeral
  have hnumeral : ∀ {d : Char} {s : List Char}, numericChar d = true →
      numeralPrefix false (d :: s ++ rest) = d :: s → d :: s = a ++ c :: b →
        runAfter .other a ≠ .other := by
    intro d s hd hpre hs
    cases a with
    | nil => exact absurd rfl ha
    | cons e a =>
        obtain rfl : d = e := (List.cons.inj hs).1
        have hends : Ends false (d :: a ++ c :: b) rest := hs ▸ hpre
        obtain ⟨hasDot, hrun, -⟩ := Ends.run_digit hd hends
        rw [hrun]
        cases hasDot <;> decide
  cases h with
  | single => exact absurd hused hone
  | double =>
      obtain rfl := pair_eq_append ha hused
      exact absurd hc (by decide)
  | half => exact absurd hused hone
  | bang => exact absurd hused hone
  | sub => exact absurd hused hone
  | @string body _ hbody =>
      have happend : ('\'' :: body) ++ ['\''] = a ++ c :: b := hused
      rcases append_eq_append_cons happend with ⟨v, hopen, -⟩ | ⟨v, -, hclose⟩
      · exact Or.inl (stringPrefix hbody ha hopen)
      · -- the digit is not the closing quote
        have hmem : c ∈ ['\''] := by
          rw [hclose]
          simp
        obtain rfl := List.mem_singleton.mp hmem
        exact absurd hc (by decide)
  | openString hbody => exact Or.inl (stringPrefix hbody ha hused)
  | number hd hpre _ => exact Or.inr (hnumeral hd hpre hused)
  | badNumber hd hpre => exact Or.inr (hnumeral hd hpre hused)
  | @word d s _ hnum hall _ =>
      cases a with
      | nil => exact absurd rfl ha
      | cons e a =>
          obtain rfl : d = e := (List.cons.inj hused).1
          -- inside a word the run is that of the word
          have hword : ∀ f ∈ d :: a, identifierChar f = true := by
            intro f hf
            refine hall f ?_
            rw [hused]
            exact List.mem_append_left _ hf
          rw [runAfter_word hnum hword]
          exact Or.inr (by decide)

/-- An item whose first character is a digit is a numeral, and it is an error if something spoils
it. -/
theorem Item.first_digit {pre used rest : List Char} {r : LexResult} {c : Char}
    (h : Item pre used rest r) (hfirst : used.head? = some c) (hc : numericChar c = true) :
    numeralPrefix false (used ++ rest) = used ∧
      (Spoils rest → ∃ code span, r = .error ⟨some code, span⟩) := by
  -- only a number begins with a digit; the other items begin with another kind of character
  cases h with
  | single hsingle =>
      cases hfirst
      rw [numericChar_of_identifierChar (identifierChar_single hsingle)] at hc
      cases hc
  | double hdouble =>
      cases hfirst
      rw [numericChar_of_identifierChar (identifierChar_double hdouble)] at hc
      cases hc
  | half hdouble _ =>
      cases hfirst
      rw [numericChar_of_identifierChar (identifierChar_double hdouble)] at hc
      cases hc
  | bang hdouble _ =>
      cases hfirst
      rw [numericChar_of_identifierChar (identifierChar_double hdouble)] at hc
      cases hc
  | sub =>
      cases hfirst
      exact absurd hc (by decide)
  | string =>
      cases hfirst
      exact absurd hc (by decide)
  | openString =>
      cases hfirst
      exact absurd hc (by decide)
  | number _ hpre hhead =>
      refine ⟨hpre, ?_⟩
      -- a token ends where the next character is neither a point nor part of an identifier
      rintro ⟨d, hd, hspoil⟩
      obtain ⟨hdot, hident⟩ := hhead d hd
      rw [hident] at hspoil
      simp [hdot] at hspoil
  | badNumber _ hpre => exact ⟨hpre, fun _ => ⟨_, _, rfl⟩⟩
  | word hnum _ _ =>
      cases hfirst
      rw [hnum] at hc
      cases hc

/-! ### The call that reads a numeral -/

/-- A call before a numeral reads it or stops before it. -/
theorem call_before_numeral {done mid tail : List Char} {c : Char} {r : LexResult} {l : CharStream}
    (hcall : CallReads done (mid ++ c :: tail) r l)
    (hbegin : Begins (modeAfter .code done) (mid ++ c :: tail))
    (hstart : Starts (runAfter .other done) (mid ++ c :: tail)) (hc : numericChar c = true)
    (hout : (modeAfter .code (done ++ mid)).Outside)
    (hleft : runAfter .other (done ++ mid) = .other) :
    ReadsAt (done ++ mid) (c :: tail) r l ∨ ∃ done' mid', mid'.length < mid.length ∧
      done' ++ mid' = done ++ mid ∧ Reading l done' (mid' ++ c :: tail) ∧
        Begins (modeAfter .code done') (mid' ++ c :: tail) ∧
          Starts (runAfter .other done') (mid' ++ c :: tail) := by
  rcases call_before hcall hbegin (identifierChar_of_numericChar hc) hout with hat |
    ⟨s, v, w, rest, hv, rfl, rfl, hskip, hitem⟩ | ⟨s, used, mid', rfl, hskip, hitem, hread⟩
  · exact Or.inl hat
  · -- the digit would be inside the item
    rw [List.append_assoc] at hbegin hstart
    rcases Item.inside_digit hitem rfl hv hc with hstring | hrun
    · rw [mode_of_item hbegin hskip hv] at hout
      exact absurd hstring hout.1
    · rw [run_of_item hstart hskip hv] at hleft
      exact absurd hleft hrun
  · rw [List.append_assoc, List.append_assoc] at hbegin hstart
    refine Or.inr ⟨done ++ s ++ used, mid', ?_, by simp, hread, ?_, ?_⟩
    · have hpos := List.length_pos_iff.mpr hitem.used_ne_nil
      simp only [List.length_append]
      omega
    · rw [List.append_assoc, mode_of_item hbegin hskip hitem.used_ne_nil]
      exact Item.begins hitem (by simp)
    · rw [List.append_assoc, run_of_item hstart hskip hitem.used_ne_nil]
      exact Item.starts_run hitem (by simp)

/-- Some call reads exactly the numeral, and what it returns. -/
theorem reads_numeral {source : Source} {pre w rest : List Char}
    (h : NumeralAt source pre w rest) : ∃ r, ReadBy source pre.length r ∧
      (Spoils rest → ∃ code span, r = .error ⟨some code, span⟩) ∧
      (¬ Spoils rest → r = numberToken ⟨locationAfter pre, locationAfter (pre ++ w.dropLast)⟩
        (w ++ rest) w.length (decide ('.' ∈ w))) := by
  obtain ⟨c, hfirst, hc⟩ := h.digit
  cases w with
  | nil => cases hfirst
  | cons d w =>
      obtain rfl : d = c := Option.some.inj hfirst
      have hat : StandsAt (lexerAfter source 0) [] (pre ++ (d :: w ++ rest)) :=
        h.text ▸ standsAt_lexerInit source
      obtain ⟨j, used, rest', r, hle, hnext, hr, hsplit, hitem, hnumber⟩ :=
        reads_at (P := fun done mid => Begins (modeAfter .code done) (mid ++ (d :: w ++ rest)) ∧
            Starts (runAfter .other done) (mid ++ (d :: w ++ rest)))
          (fun hpre hcall hP => by
            subst hpre
            exact call_before_numeral hcall hP.1 hP.2 hc h.outside h.left)
          _ 0 (Nat.lt_succ_self _) (List.nil_append pre) hat ⟨begins_code _, starts_other _⟩
      have hhead : used.head? = some d := by
        cases used with
        | nil => exact absurd rfl hitem.used_ne_nil
        | cons e used => rw [← (List.cons.inj hsplit).1, List.head?_cons]
      obtain ⟨hpre, hspoil⟩ := Item.first_digit hitem hhead hc
      -- the item is the numeral, for both are maximal
      have hused : d :: w = used := by rw [← h.maximal, hsplit, hpre]
      subst hused
      obtain rfl : rest = rest' := List.append_cancel_left hsplit
      have hpos := List.length_pos_iff.mpr hitem.used_ne_nil
      refine ⟨r, ⟨j, hle, by omega, hr⟩, hspoil, fun hnot => hnumber d rfl hc fun e he => ?_⟩
      by_contra hbad
      refine hnot ⟨e, he, ?_⟩
      cases hident : identifierChar e with
      | true => exact Or.inr rfl
      | false => exact Or.inl (by_contra fun hdot => hbad ⟨hdot, hident⟩)

/-! ### Numerals that mean what they say -/

section
variable {source : Source} {pre w rest : List Char} (h : NumeralAt source pre w rest)
include h

/-- A numeral that something goes on with is an error, which is no wrong value. -/
theorem meansWhatItSays_of_spoils (hs : Spoils rest) : MeansWhatItSays source pre w := by
  obtain ⟨r, hread, hspoil, -⟩ := reads_numeral h
  obtain ⟨code, span, rfl⟩ := hspoil hs
  exact ⟨_, hread, .error⟩

/-- A numeral that nothing spoils means what it says when its literal is exact. -/
theorem meansWhatItSays_iff_exact (hs : ¬ Spoils rest) :
    MeansWhatItSays source pre w ↔
      Exact w (numberToken ⟨locationAfter pre, locationAfter (pre ++ w.dropLast)⟩ (w ++ rest)
        w.length (decide ('.' ∈ w))) := by
  obtain ⟨r, hread, -, htoken⟩ := reads_numeral h
  rw [MeansWhatItSays, ← htoken hs]
  constructor
  · rintro ⟨r', hread', hexact⟩
    rwa [ReadBy.unique hread hread']
  · exact fun hexact => ⟨r, hread, hexact⟩

/-- A short numeral means what it says when its value is in range, or when it has too many decimals
to be accepted. -/
theorem short_numeral_iff (hs : ¬ Spoils rest) (hlen : w.length < 2 ^ 32) :
    MeansWhatItSays source pre w ↔ ('.' ∉ w ∧ digitsValue w < 2 ^ 31) ∨
      ('.' ∈ w ∧ (6 < (fracPart w).length ∨ digitsValue (intPart w) < 2 ^ 15)) := by
  rw [meansWhatItSays_iff_exact h hs]
  have hends : Ends false w rest := h.maximal
  by_cases hdot : '.' ∈ w
  · obtain ⟨ip, fp, rfl, hip, hfp⟩ := hends.decimal hdot
    have hnot : ¬ ('.' ∉ ip ++ '.' :: fp ∧ digitsValue (ip ++ '.' :: fp) < 2 ^ 31) :=
      fun hint => hint.1 hdot
    rw [decide_eq_true hdot, exact_decimal_iff hip hfp hlen, intPart_decimal hip,
      fracPart_decimal hip, or_iff_right hnot, and_iff_right hdot]
  · have hdigits := hends.digits hdot
    rw [decide_eq_false hdot, exact_digits_iff hdigits hlen, or_iff_left fun hnot => hdot hnot.1,
      and_iff_right hdot]

/-- A longer numeral means what it says when its loop stops. -/
theorem long_numeral_iff (hs : ¬ Spoils rest) (hlen : 2 ^ 32 ≤ w.length) :
    MeansWhatItSays source pre w ↔ '.' ∈ w.take (2 ^ 32) := by
  have hends : Ends false w rest := h.maximal
  rw [meansWhatItSays_iff_exact h hs, numberToken_long hends hlen]
  split
  · rename_i hdot
    exact iff_of_true .error hdot
  · rename_i hdot
    -- a call that never returns returns nothing exact
    exact iff_of_false nofun hdot

/-- A numeral is an error or means what it says exactly when it is rejected or has room. -/
theorem lexer_numeral_iff : MeansWhatItSays source pre w ↔ InRange w rest := by
  by_cases hs : Spoils rest
  · exact iff_of_true (meansWhatItSays_of_spoils h hs) (Or.inl hs)
  · rw [InRange, or_iff_right hs]
    by_cases hlen : w.length < 2 ^ 32
    · rw [short_numeral_iff h hs hlen]
      simp only [hlen, Nat.not_le.mpr hlen, true_and, false_and, or_false]
    · rw [long_numeral_iff h hs (Nat.le_of_not_lt hlen)]
      simp only [hlen, Nat.le_of_not_lt hlen, true_and, false_and, false_or]

end

/-- A source with a decimal. -/
def decimalSource : Source := ⟨"1.5".toList, by decide⟩

/-- The numeral of `decimalSource`. -/
theorem numeralAt_decimalSource : NumeralAt decimalSource [] "1.5".toList [] where
  text := by decide
  digit := ⟨'1', rfl, by decide⟩
  maximal := by decide
  left := rfl
  outside := by decide

/-- The numeral of `decimalSource` meets the hypothesis of the theorem. -/
theorem lexer_numeral_iff_decimalSource :
    MeansWhatItSays decimalSource [] "1.5".toList ↔ InRange "1.5".toList [] :=
  lexer_numeral_iff numeralAt_decimalSource

/-- A source with a decimal that has no room. -/
def wideSource : Source := ⟨"65536.5".toList, by decide⟩

/-- The literal of `65536.5` is one half. -/
theorem lexer_wideSource : NumeralAt wideSource [] "65536.5".toList [] ∧
    ReadBy wideSource 0
      (.ok ⟨.tokenLiteral, ⟨⟨1, 1, 0⟩, ⟨1, 7, 6⟩⟩, .literal (.literalFix (2 ^ 15))⟩) ∧
    ¬ MeansWhatItSays wideSource [] "65536.5".toList := by
  have hread : ReadBy wideSource 0
      (.ok ⟨.tokenLiteral, ⟨⟨1, 1, 0⟩, ⟨1, 7, 6⟩⟩, .literal (.literalFix (2 ^ 15))⟩) :=
    ⟨0, by decide +kernel⟩
  refine ⟨⟨by decide, ⟨'6', rfl, by decide⟩, by decide, rfl, by decide⟩, hread, ?_⟩
  rintro ⟨r, hread', hexact⟩
  obtain rfl := ReadBy.unique hread hread'
  cases hexact with
  | fix _ hvalue =>
      have hdigits : ∀ c ∈ "65536".toList, numericChar c = true := List.all_eq_true.mp (by decide)
      have hfloor := floor_numeralValue hdigits "5".toList
      rw [show "65536.5".toList = "65536".toList ++ '.' :: "5".toList from rfl, hfloor] at hvalue
      exact absurd hvalue (by decide)

end Nucleus.Proofs
