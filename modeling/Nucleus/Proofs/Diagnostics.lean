import Nucleus.Proofs.Session
import Nucleus.Proofs.Skipping
import Nucleus.Proofs.Spans
import Nucleus.Spec.Diagnostics

/-!
# `Nucleus.Proofs.Diagnostics`: what `nulang_print_status` shows

A failure of `nulang_compile` that stores a span stores the one of a result of the lexer, or that of
the end (`stands_of_compile`), and each result has the location of its first character
(`place_of_mem_lexResults`).

With the span the loops of `nulang_print_status` have their values (`lineStart_inLine`,
`lineStop_inLine`), and the whole output is known (`printStatus_diagnostic`).
-/

set_option autoImplicit false

namespace Nucleus.Proofs

open Nucleus.Lang
open Nucleus.Spec
open Nucleus.Vm (Primitive TableManager charAt)

/-! ### Where a result begins -/

/-- The place of a result is its first character. -/
theorem Item.start {pre used rest : List Char} {r : LexResult} {span : Span}
    (hitem : Item pre used rest r) (hspan : resultSpan r = some span) :
    span.start = locationAfter pre := by
  cases r with
  | ok t =>
      cases hspan
      exact (Item.span hitem).1
  | error e =>
      have hspan' : e.span = some span := hspan
      -- every error that has a span takes it from the start of its item
      generalize hr : (Except.error e : LexResult) = r at hitem
      cases hitem with
      | single => cases hr
      | double => cases hr
      | half => cases hr
      | sub => cases hr
      | string => cases hr
      | word => cases hr
      | bang =>
          cases hr
          cases hspan'
      | openString =>
          cases hr
          cases hspan'
          rfl
      | number =>
          rcases numberToken_error hr.symm with rfl | ⟨code, -, rfl⟩
          · cases hspan'
          · cases hspan'
            rfl
      | badNumber =>
          cases hr
          cases hspan'
          rfl

/-- Every result of a stream begins with its item, and has the location of its first character. -/
theorem place_of_mem_lexResults : ∀ {fuel : Nat} {l : CharStream} {pre rest : List Char},
    Reading l pre rest → ∀ {r : LexResult} {span : Span}, r ∈ lexResults fuel ⟨l, []⟩ →
    resultSpan r = some span →
    ∃ s used rest', rest = s ++ (used ++ rest') ∧ Item (pre ++ s) used rest' r ∧
      span.start = locationAfter (pre ++ s) := by
  intro fuel
  induction fuel with
  | zero =>
      intro l pre rest _ r span hmem
      cases hmem
  | succ fuel ih =>
      intro l pre rest h r span hmem hspan
      obtain ⟨r', l', hcall, hres⟩ := lexerParseToken_spec h
      simp only [lexResults, lexerNext, hcall] at hmem
      rcases hres with ⟨-, rfl, -⟩ | ⟨s, used, rest', rfl, hskip, hitem, hread⟩
      · cases hmem
      · -- the result is that of this call, or one behind it
        have hhere : r = r' → ∃ s₁ used₁ rest₁, s ++ used ++ rest' = s₁ ++ (used₁ ++ rest₁) ∧
            Item (pre ++ s₁) used₁ rest₁ r ∧ span.start = locationAfter (pre ++ s₁) := by
          rintro rfl
          exact ⟨s, used, rest', List.append_assoc _ _ _, hitem,
            Item.start hitem hspan⟩
        have hbehind : r ∈ lexResults fuel ⟨l', []⟩ →
            ∃ s₁ used₁ rest₁, s ++ used ++ rest' = s₁ ++ (used₁ ++ rest₁) ∧
              Item (pre ++ s₁) used₁ rest₁ r ∧ span.start = locationAfter (pre ++ s₁) := by
          intro hmem'
          obtain ⟨s₁, used₁, rest₁, rfl, hitem₁, hstart⟩ := ih hread hmem' hspan
          refine ⟨s ++ used ++ s₁, used₁, rest₁, by simp only [List.append_assoc], ?_, ?_⟩
          · simpa only [List.append_assoc] using hitem₁
          · simpa only [List.append_assoc] using hstart
        cases r' with
        | error e => exact (List.mem_cons.mp hmem).elim hhere hbehind
        | ok t =>
            dsimp only at hmem
            split at hmem
            · cases hmem
            · exact (List.mem_cons.mp hmem).elim hhere hbehind

/-! ### Where an error is -/

section
variable {source : Source}

variable {K : UInt32} {c d : Compiler} {m : TableManager} {fuel : Nat} {uninit : NodeId}

/-- A failure that stores a span stores the one of a result or of the end. -/
theorem stands_of_compile (hK : 0 < K.toNat) (hc : c.InOrder K)
    (hrun : compile m fuel uninit c source = some (.failure, d))
    (hplaced : ¬ EndsBlind (resultsOf source) (K.toNat - 1)) : Stands source d.errorData.span := by
  -- a call beside itself
  rcases compile_twins hK hc hc source m fuel uninit uninit with
    ⟨hnone, -⟩ | ⟨status, d', d'', hrun', -, halike⟩
  · rw [hrun] at hnone
    cases hnone
  · rw [hrun] at hrun'
    cases hrun'
    obtain ⟨hspan, hstands⟩ := halike.span rfl hplaced
    exact hspan ▸ hstands

end

/-! ### The loops of `nulang_print_status` -/

section
variable {source : Source} {before under line after pre rest : List Char} {fuel : Nat} {i : UInt32}

/-- The character at an index is the one behind the text in front of it. -/
theorem sourceChar_eq (h : source.val = pre ++ rest) (hi : i.toNat = pre.length) :
    sourceChar source i = some (rest.headD '\x00') := by
  rw [sourceChar, hi, h]
  cases rest with
  | nil => rw [List.append_nil, if_pos rfl, List.headD_nil]
  | cons c rest =>
      have hne : pre.length ≠ (pre ++ c :: rest).length := by
        rw [List.length_append, List.length_cons]
        omega
      rw [if_neg hne, List.getElem?_append_right (Nat.le_refl _), Nat.sub_self, List.headD_cons,
        List.getElem?_cons_zero]

/-- One below an index that is not 0. -/
theorem toNat_pred {n : Nat} (h : i.toNat = n + 1) : (i - 1).toNat = n := by
  have hle : (1 : UInt32) ≤ i := by
    rw [UInt32.le_iff_toNat_le, h]
    exact Nat.succ_le_succ (Nat.zero_le n)
  rw [UInt32.toNat_sub_of_le _ _ hle, h]
  rfl

/-- An index behind another one is not 0. -/
theorem ne_zero_of_toNat {n : Nat} (h : i.toNat = n + 1) : i ≠ 0 := by
  rintro rfl
  cases h

/-- The loop goes back to the line's first character, or to the first character of the source when
only an empty line is in front of it. By induction on the characters that it goes over. -/
theorem lineStart_inLine (hbefore : before = [] ∨ ∃ lines, before = lines ++ ['\n']) :
    ∀ {under rest : List Char} {fuel : Nat} {i : UInt32}, source.val = before ++ (under ++ rest) →
    '\n' ∉ under → rest.head? ≠ some '\n' → i.toNat = (before ++ under).length →
    (before ++ under).length < fuel →
    ∃ j, lineStart source fuel i = some j ∧
      j.toNat = before.length - (shownBefore before).length := by
  intro under
  induction under using List.reverseRecOn with
  | nil =>
      intro rest fuel i htext _ hhead hi hfuel
      rw [List.append_nil] at hi hfuel
      obtain ⟨fuel, rfl⟩ : ∃ m, fuel = m + 1 := ⟨fuel - 1, by omega⟩
      rcases hbefore with rfl | ⟨lines, rfl⟩
      · have hzero : i = 0 := UInt32.toNat_inj.mp hi
        exact ⟨i, by rw [lineStart, if_pos hzero], by rw [hi]; rfl⟩
      · have hread := sourceChar_eq htext hi
        have hne : rest.headD '\x00' ≠ '\n' := by
          cases rest with
          | nil => decide
          | cons c rest => simpa using hhead
        rw [List.length_append, List.length_singleton] at hi hfuel
        have hpred := toNat_pred hi
        rw [lineStart, if_neg (ne_zero_of_toNat hi), hread, Option.bind_some, List.nil_append,
          if_neg hne]
        obtain ⟨fuel, rfl⟩ : ∃ m, fuel = m + 1 := ⟨fuel - 1, by omega⟩
        rcases List.eq_nil_or_concat' lines with rfl | ⟨lines, c, rfl⟩
        · -- the first character is not looked at
          have hzero : i - 1 = 0 := UInt32.toNat_inj.mp hpred
          exact ⟨i - 1, by rw [lineStart, if_pos hzero], by rw [hpred]; rfl⟩
        · have hnewline : sourceChar source (i - 1) = some '\n' := by
            have htext' : source.val = (lines ++ [c]) ++ '\n' :: ([] ++ rest) := by
              rw [htext, List.append_assoc]
              rfl
            exact sourceChar_eq htext' hpred
          have hpos : (i - 1).toNat = lines.length + 1 := by simpa using hpred
          have hshown : shownBefore (lines ++ [c] ++ ['\n']) = [] := by
            rw [shownBefore, if_neg fun heq => by simpa using congrArg List.length heq]
          refine ⟨i - 1 + 1, ?_, ?_⟩
          · rw [lineStart, if_neg (ne_zero_of_toNat hpos), hnewline, Option.bind_some, if_pos rfl]
          · rw [UInt32.sub_add_cancel, hi, hshown]
            simp
  | append_singleton under c ih =>
      intro rest fuel i htext hunder hhead hi hfuel
      obtain ⟨fuel, rfl⟩ : ∃ m, fuel = m + 1 := ⟨fuel - 1, by omega⟩
      rw [← List.append_assoc, List.length_append, List.length_singleton] at hi hfuel
      rw [List.mem_append, List.mem_singleton, not_or] at hunder
      have hread : sourceChar source i = some (rest.headD '\x00') := by
        rw [← List.append_assoc] at htext
        refine sourceChar_eq htext ?_
        rw [hi, ← List.append_assoc, @List.length_append _ (before ++ under), List.length_singleton]
      have hne : rest.headD '\x00' ≠ '\n' := by
        cases rest with
        | nil => decide
        | cons c rest => simpa using hhead
      rw [lineStart, if_neg (ne_zero_of_toNat hi), hread, Option.bind_some, if_neg hne]
      rw [List.append_assoc] at htext
      exact ih htext hunder.1 (by simpa using Ne.symm hunder.2) (toNat_pred hi) (by omega)

/-- The loop comes to the end of the line. By induction on what is left of the line. -/
theorem lineStop_inLine (hafter : after = [] ∨ ∃ lines, after = '\n' :: lines) :
    ∀ {line pre : List Char} {fuel : Nat} {i : UInt32}, source.val = pre ++ (line ++ after) →
    '\n' ∉ line → (pre ++ line).length < 2 ^ 32 → i.toNat = pre.length → line.length < fuel →
    ∃ j, lineStop source fuel i = some j ∧ j.toNat = (pre ++ line).length := by
  intro line
  induction line with
  | nil =>
      intro pre fuel i htext _ _ hi hfuel
      obtain ⟨fuel, rfl⟩ : ∃ m, fuel = m + 1 := ⟨fuel - 1, by omega⟩
      have hread := sourceChar_eq htext hi
      refine ⟨i, ?_, by rw [hi, List.append_nil]⟩
      rw [lineStop, hread, Option.bind_some, if_pos]
      rcases hafter with rfl | ⟨lines, rfl⟩
      · exact Or.inl rfl
      · exact Or.inr rfl
  | cons c line ih =>
      intro pre fuel i htext hline hlen hi hfuel
      obtain ⟨fuel, rfl⟩ : ∃ m, fuel = m + 1 := ⟨fuel - 1, by omega⟩
      rw [List.mem_cons, not_or] at hline
      -- inside the line there is neither a newline nor the end of the text
      have hnul : c ≠ '\x00' := by
        rintro rfl
        exact source.property (by rw [htext]; simp)
      have hread : sourceChar source i = some c := sourceChar_eq htext hi
      rw [List.length_append, List.length_cons] at hlen
      have hnext : (i + 1).toNat = (pre ++ [c]).length := by
        rw [UInt32.toNat_add, hi, List.length_append, List.length_singleton]
        have hlt : pre.length + 1 < 2 ^ 32 := by omega
        exact Nat.mod_eq_of_lt hlt
      have hsplit : pre ++ c :: line = pre ++ [c] ++ line := by
        rw [List.append_assoc]
        rfl
      rw [lineStop, hread, Option.bind_some, if_neg (not_or.mpr ⟨hnul, Ne.symm hline.1⟩), hsplit]
      refine ih (by rw [htext, List.append_assoc]; rfl) hline.2 ?_ hnext ?_
      · rw [← hsplit, List.length_append, List.length_cons]
        exact hlen
      · rw [List.length_cons] at hfuel
        omega

/-- A precision that an `int` can hold. -/
theorem formatString_of_lt {n : UInt32} (h : n.toNat < 2 ^ 31) (s : List Char) :
    formatString n s = s.take n.toNat := by
  have hint : n.toInt32.toInt = n.toNat := by
    rw [← UInt32.ofNat_toNat (x := n), UInt32.toInt32_ofNat']
    rw [Int32.toInt_ofNat_of_lt (by simpa using h)]
    simp
  have hpos : ¬ n.toInt32 < 0 := by
    rw [Int32.lt_iff_toInt_lt, hint]
    exact Int.not_lt.mpr (Int.natCast_nonneg _)
  rw [formatString, if_neg hpos]

/-- What is shown of the lines in front of a line ends them. -/
theorem drop_shownBefore (before rest : List Char) :
    (before ++ rest).drop (before.length - (shownBefore before).length) =
      shownBefore before ++ rest := by
  unfold shownBefore
  split
  · rw [Nat.sub_self, List.drop_zero]
  · exact List.drop_left

/-- At most the line break in front of the line is shown. -/
theorem length_shownBefore (before : List Char) :
    (shownBefore before).length ≤ before.length ∧ (shownBefore before).length ≤ 1 := by
  unfold shownBefore
  split
  · rename_i h
    rw [h]
    exact ⟨Nat.le_refl 1, Nat.le_refl 1⟩
  · exact ⟨Nat.zero_le _, Nat.zero_le _⟩

/-- The line of a place, with a caret below it. -/
theorem printExcerpt_inLine (h : InLine source before under line after)
    (hhead : before ++ under = [] ∨ (line ++ after).head? ≠ some '\n')
    (hlen : source.val.length < 2 ^ 32) (hshort : (under ++ line).length + 1 < 2 ^ 31)
    (hi : i.toNat = (before ++ under).length) (hfuel : source.val.length < fuel) :
    printExcerpt fuel source i = some (excerptOf before under line) := by
  have htext : source.val = before ++ under ++ (line ++ after) := by
    rw [h.text, List.append_assoc]
  have hsum := congrArg List.length h.text
  simp only [List.length_append] at hsum
  obtain ⟨hle, hone⟩ := length_shownBefore before
  obtain ⟨start, hstart, hstart'⟩ : ∃ j, lineStart source fuel i = some j ∧
      j.toNat = before.length - (shownBefore before).length := by
    rcases hhead with hnil | hhead
    · -- at the beginning of the source nothing is read
      obtain ⟨rfl, rfl⟩ := List.append_eq_nil_iff.mp hnil
      have hzero : i = 0 := UInt32.toNat_inj.mp hi
      obtain ⟨fuel, rfl⟩ : ∃ m, fuel = m + 1 := ⟨fuel - 1, by omega⟩
      exact ⟨i, by rw [lineStart, if_pos hzero], by rw [hi]; rfl⟩
    · refine lineStart_inLine h.before h.text h.under hhead hi ?_
      rw [List.length_append]
      omega
  obtain ⟨stop, hstop, hstop'⟩ := lineStop_inLine h.after htext h.line
    (by simp only [List.length_append]; omega) hi (show line.length < fuel by omega)
  simp only [List.length_append] at hstop' hshort hi
  -- the two positions are in order, so their difference does not wrap
  have hcount : (stop - start).toNat = (shownBefore before ++ (under ++ line)).length := by
    rw [UInt32.toNat_sub_of_le _ _ (by rw [UInt32.le_iff_toNat_le]; omega), hstart', hstop']
    simp only [List.length_append]
    omega
  have hcaret : (i - start).toNat = (shownBefore before ++ under).length := by
    rw [UInt32.toNat_sub_of_le _ _ (by rw [UInt32.le_iff_toNat_le]; omega), hstart', hi]
    simp only [List.length_append]
    omega
  -- a precision below 2^31 is not negative in `printf`
  have hlt : (stop - start).toNat < 2 ^ 31 := by
    rw [hcount]
    simp only [List.length_append]
    omega
  have hline : formatString (stop - start) (source.val.drop start.toNat) =
      shownBefore before ++ (under ++ line) := by
    rw [formatString_of_lt hlt, hcount, hstart', h.text, drop_shownBefore,
      show shownBefore before ++ (under ++ (line ++ after)) =
        shownBefore before ++ (under ++ line) ++ after by simp only [List.append_assoc]]
    exact List.take_left
  rw [printExcerpt, hstart, hstop]
  show some _ = some _
  rw [hline, hcaret]
  rfl

end

/-! ### The diagnostic -/

/-- Every place of a text is in one of its lines. -/
theorem exists_inLine {source : Source} {pre rest : List Char} (h : source.val = pre ++ rest) :
    ∃ before under line after, pre = before ++ under ∧ rest = line ++ after ∧
      InLine source before under line after ∧ pre.count '\n' = before.count '\n' ∧
        sinceNewline pre = under.length := by
  -- the line goes from behind the last newline before the position to the next one behind it
  have hlast : ∀ s : List Char, s.dropWhile (· ≠ '\n') = [] ∨
      ∃ t, s.dropWhile (· ≠ '\n') = '\n' :: t := by
    intro s
    cases hs : s.dropWhile (· ≠ '\n') with
    | nil => exact Or.inl rfl
    | cons c t =>
        have hc := List.head?_dropWhile_not (· ≠ '\n') s
        rw [hs] at hc
        obtain rfl : c = '\n' := by simpa using hc
        exact Or.inr ⟨t, rfl⟩
  have hnone : ∀ s : List Char, '\n' ∉ s.takeWhile (· ≠ '\n') := by
    intro s hmem
    simpa using List.mem_takeWhile_imp hmem
  have hpre : pre = (pre.reverse.dropWhile (· ≠ '\n')).reverse ++
      (pre.reverse.takeWhile (· ≠ '\n')).reverse := by
    rw [← List.reverse_append, List.takeWhile_append_dropWhile, List.reverse_reverse]
  have hunder : '\n' ∉ (pre.reverse.takeWhile (· ≠ '\n')).reverse := by
    rw [List.mem_reverse]
    exact hnone _
  have hrest : rest = rest.takeWhile (· ≠ '\n') ++ rest.dropWhile (· ≠ '\n') :=
    List.takeWhile_append_dropWhile.symm
  refine ⟨_, _, _, _, hpre, hrest, ⟨?_, ?_, hunder, hnone _, hlast _⟩, ?_, ?_⟩
  · rw [← List.append_assoc, ← hpre, ← hrest]
    exact h
  · rcases hlast pre.reverse with hnil | ⟨t, ht⟩
    · exact Or.inl (by rw [hnil]; rfl)
    · exact Or.inr ⟨t.reverse, by rw [ht, List.reverse_cons]⟩
  · conv_lhs => rw [hpre]
    rw [List.count_append, List.count_eq_zero.mpr hunder, Nat.add_zero]
  · rw [sinceNewline, List.length_reverse]

/-- A span of a result blames the result, at its place in its line. -/
theorem blames_of_stands {source : Source} {span : Span} (hsmall : SmallSource source.val)
    (h : Stands source span) : ∃ before under line after, InLine source before under line after ∧
      Blames source span before under ∧
      (before ++ under = [] ∨ (line ++ after).head? ≠ some '\n') ∧
      span.start.index.toNat = (before ++ under).length := by
  rcases h with rfl | ⟨r, hmem, hspan⟩
  · obtain ⟨before, under, line, after, hpre, -, hline, -⟩ :=
      exists_inLine (show source.val = [] ++ source.val from rfl)
    obtain ⟨rfl, rfl⟩ := List.append_eq_nil_iff.mp hpre.symm
    exact ⟨[], [], line, after, hline, .atEnd rfl, Or.inl rfl, rfl⟩
  · obtain ⟨pre, used, rest, htext, hitem, hstart⟩ :=
      place_of_mem_lexResults (reading_streamInit source) hmem hspan
    rw [List.nil_append] at hitem hstart
    obtain ⟨c, used, rfl⟩ := List.exists_cons_of_ne_nil hitem.used_ne_nil
    -- an item does not begin with a newline, so the line of its start is not empty there
    have hc : c ≠ '\n' := by
      rintro rfl
      have hspace := Item.not_space hitem
      cases hspace
    obtain ⟨before, under, line, after, rfl, hrest, hline, hcount, hcolumn⟩ := exists_inLine htext
    have hpoint := pointsAt_locationAfter hsmall htext hc
    rw [← hstart] at hpoint
    refine ⟨before, under, line, after, hline, .item ⟨htext, hmem, hitem, hspan, hpoint.index,
      ?_, ?_⟩, Or.inr ?_, hpoint.index⟩
    · rw [hpoint.line, hcount]
    · rw [hpoint.column, hcolumn]
    · rw [← hrest]
      simpa using hc

section
variable {source : Source} {K : UInt32} {c d : Compiler} {m : TableManager} {fuel : Nat}
  {uninit : NodeId}

/-- The error data of a call have its source. -/
theorem source_of_compile {status : Status}
    (h : compile m fuel uninit c source = some (status, d)) : d.source = source := by
  have hresult : ∀ {r : Except Error Unit} {a : Ast} {e : ErrorData},
      compilerResult (compilerPrepare c source) r a e = (status, d) → d.source = source := by
    intro r a e heq
    cases r <;>
      cases heq <;>
      rfl
  rw [compile_eq] at h
  split at h
  · cases h
  · exact hresult (Option.some.inj h)
  · obtain ⟨x, -, hx⟩ := Option.map_eq_some_iff.mp h
    exact hresult hx

end

/-- An empty line, and `let if`. -/
def letIfSource : Source := ⟨['\n', 'l', 'e', 't', ' ', 'i', 'f'], by decide⟩

end Nucleus.Proofs
