import Mathlib.Data.List.TakeWhile
import Mathlib.Tactic.FieldSimp
import Nucleus.Proofs.Digits

/-!
# `Nucleus.Proofs.Literals`: when a literal is exact

The characters of a numeral are digits with at most one dot (`Ends.digits`, `Ends.decimal`). The
literal of an integer is exact below `2 ^ 31` (`exact_digits_iff`), and that of a decimal when its
integer part is below `2 ^ 15` (`exact_decimal_iff`).

The digit loops have an index of 32 bits. Below `2 ^ 32` characters they are folds. From there on
they do not come to their end (`fparseCall_ok`, `iparseCall_ok`). They stop with an error if the
index comes to the dot, in the second round at the latest (`fparseLoop_long`), and otherwise they
run for ever (`iparseCall_endless`, `fparseCall_endless`).
-/

set_option autoImplicit false

namespace Nucleus.Proofs

open Nucleus.Lib
open Nucleus.Vm
open Nucleus.Lang
open Nucleus.Spec

/-! ### Numerals -/

/-- The numeral ends where its characters end. -/
def Ends (hasDot : Bool) (w rest : List Char) : Prop := numeralPrefix hasDot (w ++ rest) = w

section
variable {w rest : List Char}

/-- The characters of a numeral, one after the other. -/
theorem Ends.cons {hasDot : Bool} {c : Char} (h : Ends hasDot (c :: w) rest) :
    (numericChar c = true ∧ Ends hasDot w rest) ∨
      (c = '.' ∧ hasDot = false ∧ Ends true w rest) := by
  simp only [Ends, List.cons_append, numeralPrefix] at h
  split at h
  · rename_i hnum
    exact Or.inl ⟨hnum, (List.cons.inj h).2⟩
  · split at h
    · rename_i hdot
      exact Or.inr ⟨hdot.1, hdot.2, (List.cons.inj h).2⟩
    · cases h

/-- In front of a dot that ends the numeral there are digits only. -/
theorem Ends.digits_of_dot (h : Ends true w rest) : ∀ c ∈ w, numericChar c = true := by
  induction w with
  | nil => simp
  | cons c w ih =>
      rcases h.cons with ⟨hnum, hw⟩ | ⟨-, hdot, -⟩
      · exact List.forall_mem_cons.mpr ⟨hnum, ih hw⟩
      · cases hdot

/-- Without a dot there are digits only. -/
theorem Ends.digits (h : Ends false w rest) (hdot : '.' ∉ w) : ∀ c ∈ w, numericChar c = true := by
  induction w with
  | nil => simp
  | cons c w ih =>
      rw [List.mem_cons, not_or] at hdot
      rcases h.cons with ⟨hnum, hw⟩ | ⟨hc, -, -⟩
      · exact List.forall_mem_cons.mpr ⟨hnum, ih hw hdot.2⟩
      · exact absurd hc.symm hdot.1

/-- With a dot there are digits in front of it and behind it. -/
theorem Ends.decimal (h : Ends false w rest) (hdot : '.' ∈ w) : ∃ ip fp, w = ip ++ '.' :: fp ∧
    (∀ c ∈ ip, numericChar c = true) ∧ ∀ c ∈ fp, numericChar c = true := by
  induction w with
  | nil => cases hdot
  | cons c w ih =>
      rcases h.cons with ⟨hnum, hw⟩ | ⟨rfl, -, hw⟩
      · have hne : '.' ≠ c := Ne.symm (numericChar_ne hnum).2.1
        obtain ⟨ip, fp, rfl, hip, hfp⟩ := ih hw ((List.mem_cons.mp hdot).resolve_left hne)
        exact ⟨c :: ip, fp, rfl, List.forall_mem_cons.mpr ⟨hnum, hip⟩, hfp⟩
      · exact ⟨[], w, rfl, by simp, hw.digits_of_dot⟩

end

/-- Among digits there is no point. -/
theorem dot_notMem {s : List Char} (h : ∀ c ∈ s, numericChar c = true) : '.' ∉ s :=
  fun hdot => (numericChar_ne (h _ hdot)).2.1 rfl

/-- The integer part is what stands in front of the point. -/
theorem intPart_decimal {ip : List Char} (hip : ∀ c ∈ ip, numericChar c = true) (fp : List Char) :
    intPart (ip ++ '.' :: fp) = ip := by
  rw [intPart, List.takeWhile_append_of_pos]
  · simp
  · intro c hc
    simpa using (numericChar_ne (hip c hc)).2.1

/-- The fraction is what stands behind the point. -/
theorem fracPart_decimal {ip : List Char} (hip : ∀ c ∈ ip, numericChar c = true) (fp : List Char) :
    fracPart (ip ++ '.' :: fp) = fp := by
  rw [fracPart, List.dropWhile_append_of_pos]
  · simp
  · intro c hc
    simpa using (numericChar_ne (hip c hc)).2.1

/-- A numeral without a point means its digits. -/
theorem numeralValue_digits {w : List Char} (h : ∀ c ∈ w, numericChar c = true) :
    numeralValue w = digitsValue w := by
  have hall : ∀ c ∈ w, decide (c ≠ '.') = true := by
    intro c hc
    simpa using (numericChar_ne (h c hc)).2.1
  rw [numeralValue, intPart, fracPart, List.takeWhile_eq_self_iff.mpr hall,
    List.dropWhile_eq_nil_iff.mpr hall]
  simp

/-- Sixteen binary places of a decimal, rounded down. -/
theorem floor_numeralValue {ip : List Char} (hip : ∀ c ∈ ip, numericChar c = true)
    (fp : List Char) :
    ⌊numeralValue (ip ++ '.' :: fp) * 2 ^ 16⌋ =
      ((digitsValue ip * 2 ^ 16 + digitsValue fp * 2 ^ 16 / 10 ^ fp.length : Nat) : Int) := by
  have hpos : 0 < (10 : Nat) ^ fp.length := Nat.pow_pos (by decide)
  have hne : ((10 : ℚ) ^ fp.length) ≠ 0 := pow_ne_zero _ (by decide)
  have hquot : numeralValue (ip ++ '.' :: fp) * 2 ^ 16 =
      ((10 ^ fp.length * (digitsValue ip * 2 ^ 16) + digitsValue fp * 2 ^ 16 : Nat) : ℚ) /
        ((10 ^ fp.length : Nat) : ℚ) := by
    rw [numeralValue, intPart_decimal hip, fracPart_decimal hip]
    push_cast
    field_simp
    ring
  rw [hquot, Rat.floor_natCast_div_natCast, ← Int.natCast_ediv, Nat.mul_add_div hpos]

/-! ### Exact results -/

/-- The fuel of the digit loop is enough for a short numeral. -/
theorem lt_digitTurns (n : Nat) : n < digitTurns n := Nat.lt_add_of_pos_right (by decide)

section
variable {w : List Char} (hw : ∀ c ∈ w, numericChar c = true)
include hw

/-- A short numeral of digits becomes an integer literal, modulo `2 ^ 32`. -/
theorem numberToken_digits (hlen : w.length < 2 ^ 32) (span : Span) (rest : List Char) :
    numberToken span (w ++ rest) w.length false =
      .ok ⟨.tokenLiteral, span, .literal (.literalInt (UInt32.ofNat (digitsValue w)))⟩ := by
  have hcall := iparseCall_of_lt (s := w ++ rest) (v := 0) hlen (lt_digitTurns w.length)
  rw [iparse_digits hw] at hcall
  rw [numberToken, if_neg (by decide), hcall]
  show Except.ok _ = _
  rw [Int32.toUInt32_ofNat']

/-- An integer literal is exact when it has room in 31 bits. -/
theorem exact_digits_iff (hlen : w.length < 2 ^ 32) (span : Span) (rest : List Char) :
    Exact w (numberToken span (w ++ rest) w.length false) ↔ digitsValue w < 2 ^ 31 := by
  rw [numberToken_digits hw hlen]
  constructor
  · intro h
    cases h with
    | int _ hvalue hlt =>
        rw [numeralValue_digits hw, Nat.cast_inj] at hvalue
        exact hvalue ▸ hlt
  · intro hlt
    have hnat : (UInt32.ofNat (digitsValue w)).toNat = digitsValue w :=
      UInt32.toNat_ofNat_of_lt' (Nat.lt_trans hlt (by decide))
    refine .int (dot_notMem hw) ?_ ?_
    · rw [hnat, numeralValue_digits hw]
    · rwa [hnat]

end

/-- Below `2 ^ 31` a word keeps its value when it is taken as signed. -/
theorem toInt_toInt32_of_lt {v : UInt32} (h : v.toNat < 2 ^ 31) : v.toInt32.toInt = v.toNat := by
  have hv : v.toInt32 = Int32.ofNat v.toNat := by rw [← UInt32.toInt32_ofNat', UInt32.ofNat_toNat]
  rw [hv, Int32.toInt_ofNat_of_lt h]

section
variable {ip fp : List Char} (hip : ∀ c ∈ ip, numericChar c = true)
  (hfp : ∀ c ∈ fp, numericChar c = true)
include hip hfp

/-- A fixed-point literal is exact when its integer part has room in 15 bits, and it is an error
when it has more than six decimal places. -/
theorem exact_decimal_iff (hcount : (ip ++ '.' :: fp).length < 2 ^ 32) (span : Span)
    (rest : List Char) :
    Exact (ip ++ '.' :: fp)
        (numberToken span (ip ++ '.' :: fp ++ rest) (ip ++ '.' :: fp).length true) ↔
      6 < fp.length ∨ digitsValue ip < 2 ^ 15 := by
  have hcall := fparseCall_of_lt (s := ip ++ '.' :: fp ++ rest) (v := 0) hcount (lt_digitTurns _)
  rw [numberToken, if_pos rfl, hcall]
  by_cases hlen : 6 < fp.length
  · rw [fparse_error hip hfp hlen]
    exact iff_of_true .error (Or.inl hlen)
  · obtain ⟨v, hrun, hv⟩ := fparse_decimal hip hfp (Nat.le_of_not_lt hlen) rest
    have hpos : 0 < (10 : Nat) ^ fp.length := Nat.pow_pos (by decide)
    have hplaces : digitsValue fp * 2 ^ 16 / 10 ^ fp.length < 2 ^ 16 :=
      Nat.div_lt_of_lt_mul (Nat.mul_lt_mul_of_pos_right (digitsValue_lt hfp) (by decide))
    have hfloor := floor_numeralValue hip fp
    rw [hrun, or_iff_right hlen]
    generalize digitsValue fp * 2 ^ 16 / 10 ^ fp.length = places at hv hplaces hfloor
    constructor
    · intro h
      cases h with
      | fix _ hvalue =>
          -- a value of 32 bits is below `2 ^ 31`
          have hlt := v.toInt32.toInt_lt
          rw [hvalue, hfloor] at hlt
          omega
    · intro hlt
      refine .fix (by simp) ?_
      rw [hfloor, toInt_toInt32_of_lt (by omega), hv, Nat.mod_eq_of_lt (by omega)]

end

/-! ### The 32-bit index -/

section
variable {s : List Char} {n fuel : Nat} {v r : Int32}

/-- A call that returns a value has counted the text. -/
theorem fparseCall_ok (h : fparseCall wrapping fuel s n v = some (.ok (), r)) :
    n < 2 ^ 32 ∧ fparse s n = .ok r := by
  rw [fparseCall_wrapping] at h
  rcases hloop : indexLoop (fparseStep s) n fuel 0 ⟨false, false, 0, 0, 0⟩ with _ | ⟨e | st⟩
  · rw [hloop] at h
    cases h
  · rw [hloop] at h
    cases h
  · -- the index does not come to the end of a longer text
    have hn : n < 2 ^ 32 := by
      by_contra hn
      exact indexLoop_ne_ok (Nat.le_of_not_lt hn) fuel 0 _ hloop
    rw [hloop] at h
    cases h
    exact ⟨hn, by rw [fparse_eq, indexLoop_unique (indexLoop_eq_foldlM hn) hloop]; rfl⟩

/-- A call that succeeds had fewer than `2 ^ 32` characters: with more it does not come to its end.
-/
theorem iparseCall_ok (h : iparseCall fuel s n v = some (.ok (), r)) : n < 2 ^ 32 := by
  by_contra hn
  rw [iparseCall] at h
  rcases hloop : indexLoop (iparseStep s) n fuel 0 (false, 0) with _ | ⟨e | st⟩
  · rw [hloop] at h
    cases h
  · rw [hloop] at h
    cases h
  · exact indexLoop_ne_ok (Nat.le_of_not_lt hn) fuel 0 _ hloop

/-- A loop that stops with an error leaves the number as it was. -/
theorem fparseCall_of_error {e : Vm.Error}
    (h : indexLoop (fparseStep s) n fuel 0 ⟨false, false, 0, 0, 0⟩ = some (.error e)) :
    fparseCall wrapping fuel s n v = some (.error e, v) := by
  rw [fparseCall_wrapping, h]
  rfl

end

/-- A decimal, cut behind some of its decimals. -/
theorem decimal_take (ip fp rest : List Char) (k : Nat) :
    ip ++ '.' :: fp ++ rest = ip ++ '.' :: fp.take k ++ (fp.drop k ++ rest) := by
  rw [List.append_assoc, List.append_assoc, List.cons_append, List.cons_append,
    ← List.append_assoc (fp.take k), List.take_append_drop]

/-- Digits alone do not stop the loop of `nu_iparse`. -/
theorem iparseCall_endless {w : List Char} (hw : ∀ c ∈ w, numericChar c = true)
    (hlen : 2 ^ 32 ≤ w.length) (rest : List Char) (fuel : Nat) (v : Int32) :
    iparseCall fuel (w ++ rest) w.length v = none := by
  have hnone : indexLoop (iparseStep (w ++ rest)) w.length fuel 0 (false, 0) = none := by
    refine indexLoop_eq_none (P := fun _ => True) hlen (fun st i _ => ?_) fuel 0 _ trivial
    have hi : i.toNat < w.length := Nat.lt_of_lt_of_le i.toNat_lt hlen
    have hnum := hw _ (List.getElem_mem hi)
    rw [iparseStep_char (charAt_append_left hi) (numericChar_ne hnum).1,
      iparseStep_digit hnum]
    exact ⟨_, rfl, trivial⟩
  rw [iparseCall, hnone]
  rfl

section
variable {ip fp : List Char} (hip : ∀ c ∈ ip, numericChar c = true)
  (hfp : ∀ c ∈ fp, numericChar c = true)
include hip

/-- The point is read once more characters are read than stand in front of it. -/
theorem dot_mem_take_iff (n : Nat) : '.' ∈ (ip ++ '.' :: fp).take n ↔ ip.length < n := by
  constructor
  · intro h
    by_contra hle
    rw [List.take_append_of_le_length (Nat.le_of_not_lt hle)] at h
    exact dot_notMem hip (List.mem_of_mem_take h)
  · intro hlt
    obtain ⟨k, rfl⟩ := Nat.exists_eq_add_of_lt hlt
    rw [Nat.add_assoc, List.take_length_add_append]
    simp

/-- Neither do the digits before a dot that the index does not come to. -/
theorem fparseCall_endless (hlen : 2 ^ 32 ≤ ip.length) (rest : List Char) (fuel : Nat) (v : Int32) :
    fparseCall wrapping fuel (ip ++ '.' :: fp ++ rest) (ip ++ '.' :: fp).length v = none := by
  have hlong : 2 ^ 32 ≤ (ip ++ '.' :: fp).length := by
    rw [List.length_append]
    omega
  have hnone : indexLoop (fparseStep (ip ++ '.' :: fp ++ rest)) (ip ++ '.' :: fp).length fuel 0
      ⟨false, false, 0, 0, 0⟩ = none := by
    refine indexLoop_eq_none (P := fun st => st.fracFlag = false) hlong (fun st i hflag => ?_)
      fuel 0 _ rfl
    have hi : i.toNat < ip.length := Nat.lt_of_lt_of_le i.toNat_lt hlen
    have hnum := hip _ (List.getElem_mem hi)
    have hchar : charAt (ip ++ '.' :: fp ++ rest) i.toNat = ip[i.toNat] := by
      rw [List.append_assoc, charAt_append_left hi]
    rw [fparseStep_char hchar (numericChar_ne hnum).1, fparseStep_integer hnum hflag]
    exact ⟨_, rfl, hflag⟩
  rw [fparseCall_wrapping, hnone]
  rfl

include hfp

/-- The first round of the loop, if seven digits stand behind the dot before the index wraps. -/
theorem fparseLoop_first (hlen : 7 ≤ fp.length) (hround : ip.length + 8 ≤ 2 ^ 32)
    (rest : List Char) :
    indexLoop (fparseStep (ip ++ '.' :: fp ++ rest)) (ip ++ '.' :: fp).length (ip.length + 8) 0
      ⟨false, false, 0, 0, 0⟩ = some (.error .invalidState) := by
  have htake : (fp.take 7).length = 7 := List.length_take_of_le hlen
  have hdigits : ∀ c ∈ fp.take 7, numericChar c = true :=
    fun c hc => hfp c (List.mem_of_mem_take hc)
  have htext := decimal_take ip fp rest 7
  have hsize : (ip ++ '.' :: fp.take 7).length = ip.length + 8 := by
    rw [List.length_append, List.length_cons, htake]
  have hfold := foldlM_decimal hip hdigits (fp.drop 7 ++ rest)
  rw [fparseDigits_decimal hip hdigits, if_neg (by omega), ← htext, hsize] at hfold
  show indexLoop _ _ (ip.length + 8 + 0) 0 _ = _
  rw [indexLoop_turns _ hround, hfold]
  rw [List.length_append, List.length_cons]
  omega

/-- The second round, whose first digits count as digits behind the dot. -/
theorem fparseLoop_second (hlen : 2 ^ 32 ≤ (ip ++ '.' :: fp).length) (hlt : ip.length < 2 ^ 32)
    (hround : 2 ^ 32 < ip.length + 8) (rest : List Char) :
    indexLoop (fparseStep (ip ++ '.' :: fp ++ rest)) (ip ++ '.' :: fp).length (2 ^ 32 + (7 + 0)) 0
      ⟨false, false, 0, 0, 0⟩ = some (.error .invalidState) := by
  obtain ⟨k, hk⟩ : ∃ k, 2 ^ 32 = ip.length + k + 1 := Nat.exists_eq_add_of_lt hlt
  have htake : (fp.take k).length = k := by
    rw [List.length_append, List.length_cons] at hlen
    exact List.length_take_of_le (by omega)
  have hdigits : ∀ c ∈ fp.take k, numericChar c = true :=
    fun c hc => hfp c (List.mem_of_mem_take hc)
  have htext := decimal_take ip fp rest k
  have hsize : (ip ++ '.' :: fp.take k).length = 2 ^ 32 := by
    rw [List.length_append, List.length_cons, htake, hk, Nat.add_assoc]
  -- the first round ends behind `k` digits of the fraction
  have hfirst := foldlM_decimal hip hdigits (fp.drop k ++ rest)
  rw [fparseDigits_decimal hip hdigits, if_pos (by omega), ← htext, hsize, htake] at hfirst
  -- the second one begins with the first digits of the numeral
  have hagain : (ip.take 7).length = 7 := List.length_take_of_le (by omega)
  have hnum : ∀ c ∈ ip.take 7, numericChar c = true := fun c hc => hip c (List.mem_of_mem_take hc)
  have hcount : (UInt32.ofNat k).toNat = k := UInt32.toNat_ofNat_of_lt' (by
    show k < 2 ^ 32
    omega)
  have hsecond := foldlM_fparseStep (fun c hc => (numericChar_ne (hnum c hc)).1)
    (ip.drop 7 ++ ('.' :: fp ++ rest))
    ⟨false, true, UInt32.ofNat (digitsValue ip), UInt32.ofNat (digitsValue (fp.take k)),
      UInt32.ofNat k⟩
  rw [fparseDigits_full hnum rfl (by
    show (UInt32.ofNat k).toNat ≤ 6
    omega) (by
    show 6 < (UInt32.ofNat k).toNat + (ip.take 7).length
    omega), hagain, ← List.append_assoc, List.take_append_drop, ← List.append_assoc] at hsecond
  rw [indexLoop_rounds hlen hfirst, indexLoop_turns (by omega) (by decide), hsecond]

/-- A dot that the index comes to stops the loop. -/
theorem fparseLoop_long (hlen : 2 ^ 32 ≤ (ip ++ '.' :: fp).length) (hlt : ip.length < 2 ^ 32)
    (rest : List Char) :
    indexLoop (fparseStep (ip ++ '.' :: fp ++ rest)) (ip ++ '.' :: fp).length
      (digitTurns (ip ++ '.' :: fp).length) 0 ⟨false, false, 0, 0, 0⟩ =
        some (.error .invalidState) := by
  have hsize : (ip ++ '.' :: fp).length = ip.length + (fp.length + 1) := List.length_append
  by_cases hround : ip.length + 8 ≤ 2 ^ 32
  · refine indexLoop_mono ?_ (fparseLoop_first hip hfp (by omega) hround rest)
    show ip.length + 8 ≤ (ip ++ '.' :: fp).length + 8
    omega
  · refine indexLoop_mono ?_ (fparseLoop_second hip hfp hlen hlt (Nat.lt_of_not_le hround) rest)
    show 2 ^ 32 + (7 + 0) ≤ (ip ++ '.' :: fp).length + 8
    omega

end

/-! ### Long numerals -/

/-- A numeral that the index does not count is no literal: its loop never ends, or a dot stops it.
-/
theorem numberToken_long {w rest : List Char} (h : Ends false w rest) (hlen : 2 ^ 32 ≤ w.length)
    (span : Span) :
    numberToken span (w ++ rest) w.length (decide ('.' ∈ w)) =
      if '.' ∈ w.take (2 ^ 32) then .error ⟨some .parseFixedPoint, some span⟩
      else .error .endless := by
  by_cases hdot : '.' ∈ w
  · obtain ⟨ip, fp, rfl, hip, hfp⟩ := h.decimal hdot
    rw [decide_eq_true hdot, numberToken, if_pos rfl]
    simp only [dot_mem_take_iff hip]
    by_cases hlt : ip.length < 2 ^ 32
    · rw [fparseCall_of_error (fparseLoop_long hip hfp hlen hlt rest), if_pos hlt]
    · rw [fparseCall_endless hip (Nat.le_of_not_lt hlt) rest, if_neg hlt]
  · rw [decide_eq_false hdot, numberToken, if_neg (by decide),
      iparseCall_endless (h.digits hdot) hlen rest,
      if_neg fun hmem => hdot (List.mem_of_mem_take hmem)]

end Nucleus.Proofs
