import Mathlib.Tactic.IntervalCases
import Mathlib.Tactic.Ring
import Nucleus.Spec.Numerals

/-!
# `Nucleus.Proofs.Digits`: the digit loops of `nu_iparse` and `nu_fparse`

Both loops accumulate the digits of a numeral in a 32-bit variable, so what they have at the end is
the value of the digits modulo `2 ^ 32` (`iparse_digits`, `fparse_decimal`). The long division of
`nu_fparse` gives the sixteen binary places of the fraction (`fparseBit_fold`). A call is the loop
with its 32-bit index (`fparseCall_wrapping`), and below `2 ^ 32` characters a fold
(`fparseCall_of_lt`, `iparseCall_of_lt`).
-/

set_option autoImplicit false

namespace Nucleus.Proofs

open Nucleus.Lib
open Nucleus.Vm
open Nucleus.Lang
open Nucleus.Spec

/-! ### Digits -/

/-- A character of the numeral is read whatever stands behind. -/
theorem charAt_append_left {s t : List Char} {i : Nat} (hi : i < s.length) :
    charAt (s ++ t) i = s[i] := by
  rw [charAt, List.getD_eq_getElem?_getD, List.getElem?_append_left hi, List.getElem?_eq_getElem hi]
  rfl

/-- A loop over the indices of a text is a loop over its characters. -/
theorem foldlM_range {σ ε : Type} {f : σ → Nat → Except ε σ} {g : σ → Char → Except ε σ}
    {s : List Char} (h : ∀ i (hi : i < s.length) (st : σ), f st i = g st s[i]) (st : σ) :
    (List.range s.length).foldlM f st = s.foldlM g st := by
  induction s using List.reverseRecOn with
  | nil => rfl
  | append_singleton s c ih =>
      have hinit : ∀ i (hi : i < s.length) (st : σ), f st i = g st s[i] := by
        intro i hi st
        rw [h i (by simp; omega) st, List.getElem_append_left hi]
      have hlast : ∀ st, f st s.length = g st c := by
        intro st
        rw [h s.length (by simp) st, List.getElem_append_right (Nat.le_refl _)]
        simp
      rw [List.length_append, List.length_singleton, List.range_succ, List.foldlM_append,
        List.foldlM_append, ih hinit]
      simp only [List.foldlM_cons, List.foldlM_nil, hlast]

/-- A digit is no sign and no dot. -/
theorem numericChar_ne {c : Char} (h : numericChar c = true) :
    c ≠ '-' ∧ c ≠ '.' ∧ ¬ (c > '9' ∨ c < '0') := by
  refine ⟨?_, ?_, ?_⟩
  · rintro rfl
    exact absurd h (by decide)
  · rintro rfl
    exact absurd h (by decide)
  · simp only [numericChar, decide_eq_true_eq] at h
    rintro (hlt | hlt)
    · exact absurd h.2 (Char.not_le.mpr hlt)
    · exact absurd h.1 (Char.not_le.mpr hlt)

/-- The value of a digit. -/
theorem digit_eq {c : Char} (h : numericChar c = true) :
    digit c = UInt32.ofNat (c.toNat - '0'.toNat) := by
  simp only [numericChar, decide_eq_true_eq] at h
  have hle : '0'.val ≤ c.val := h.1
  rw [digit, ← UInt32.toNat_inj, UInt32.toNat_sub_of_le _ _ hle, UInt32.toNat_ofNat_of_lt']
  · rfl
  · exact Nat.lt_of_le_of_lt (Nat.sub_le _ _) c.val.toNat_lt

@[simp] theorem digitsValue_nil : digitsValue [] = 0 := rfl

/-- One more digit. -/
theorem digitsValue_snoc (s : List Char) (c : Char) :
    digitsValue (s ++ [c]) = digitsValue s * 10 + (c.toNat - '0'.toNat) := by
  rw [digitsValue, List.foldl_append]
  rfl

/-- The digits `s` denote a number of as many digits. -/
theorem digitsValue_lt {s : List Char} (h : ∀ c ∈ s, numericChar c = true) :
    digitsValue s < 10 ^ s.length := by
  induction s using List.reverseRecOn with
  | nil => decide
  | append_singleton s c ih =>
      have hs := ih fun d hd => h d (List.mem_append_left _ hd)
      have hc := h c (by simp)
      simp only [numericChar, decide_eq_true_eq] at hc
      have hle : c.toNat ≤ '9'.toNat := hc.2
      have hnine : '9'.toNat - '0'.toNat = 9 := rfl
      rw [digitsValue_snoc, List.length_append, List.length_singleton, pow_succ]
      omega

/-! ### `nu_iparse` -/

/-- A turn of the loop depends on its character alone, but for a sign. -/
theorem iparseStep_char {s : List Char} {i : Nat} {c : Char} (hc : charAt s i = c) (hsign : c ≠ '-')
    (st : Bool × Int32) : iparseStep s st i = iparseStep [c] st 0 := by
  have hzero : charAt [c] 0 = c := rfl
  simp only [iparseStep, hc, hzero]
  rw [if_neg hsign, if_neg hsign]

/-- A digit is added behind the others. -/
theorem iparseStep_digit {c : Char} (hnum : numericChar c = true) (st : Bool × Int32) :
    iparseStep [c] st 0 = .ok (st.1, st.2 * 10 + (digit c).toInt32) := by
  obtain ⟨hsign, -, hrange⟩ := numericChar_ne hnum
  have hzero : charAt [c] 0 = c := rfl
  simp only [iparseStep, hzero]
  rw [if_neg hsign, if_neg hrange]

/-- The loop of `nu_iparse` over the characters `s`. -/
def iparseDigits (s : List Char) (st : Bool × Int32) : Except Vm.Error (Bool × Int32) :=
  s.foldlM (fun st c => iparseStep [c] st 0) st

/-- The loop over two texts, one behind the other. -/
theorem iparseDigits_append (s t : List Char) (st : Bool × Int32) :
    iparseDigits (s ++ t) st = iparseDigits s st >>= iparseDigits t := List.foldlM_append

/-- The loop over digits gives their value, modulo `2 ^ 32`. The induction takes the digits from the
back. -/
theorem iparseDigits_eq {s : List Char} (h : ∀ c ∈ s, numericChar c = true) (sign : Bool) :
    iparseDigits s (sign, 0) = .ok (sign, Int32.ofNat (digitsValue s)) := by
  induction s using List.reverseRecOn with
  | nil => rfl
  | append_singleton s c ih =>
      have hc := h c (by simp)
      have hdigit : (digit c).toInt32 = Int32.ofNat (c.toNat - '0'.toNat) := by
        rw [digit_eq hc, UInt32.toInt32_ofNat']
      rw [iparseDigits_append, ih fun d hd => h d (List.mem_append_left _ hd)]
      show iparseDigits [c] (sign, Int32.ofNat (digitsValue s)) = _
      rw [iparseDigits, List.foldlM_cons, iparseStep_digit hc, hdigit, digitsValue_snoc,
        Int32.ofNat_add, Int32.ofNat_mul]
      rfl

/-- A numeral of digits is read as its value. -/
theorem iparse_digits {w : List Char} (h : ∀ c ∈ w, numericChar c = true) (rest : List Char) :
    iparse (w ++ rest) w.length = .ok (Int32.ofNat (digitsValue w)) := by
  have hfold : (List.range w.length).foldlM (iparseStep (w ++ rest)) (false, 0) =
      iparseDigits w (false, 0) :=
    foldlM_range (fun _ hi st => iparseStep_char (charAt_append_left hi)
      (numericChar_ne (h _ (List.getElem_mem hi))).1 st) _
  rw [iparse, hfold, iparseDigits_eq h]
  rfl

/-! ### The characters that `nu_fparse` reads -/

/-- A turn of the loop depends on its character alone, but for a sign. -/
theorem fparseStep_char {s : List Char} {i : Nat} {c : Char} (hc : charAt s i = c) (hsign : c ≠ '-')
    (st : FparseState) : fparseStep s st i = fparseStep [c] st 0 := by
  have hzero : charAt [c] 0 = c := rfl
  simp only [fparseStep, hc, hzero]
  rw [if_neg hsign, if_neg hsign]

section
variable {c : Char} (hnum : numericChar c = true) {st : FparseState}
include hnum

/-- In front of the point a digit counts for the integer part. -/
theorem fparseStep_integer (hflag : st.fracFlag = false) :
    fparseStep [c] st 0 = .ok { st with inte := st.inte * 10 + digit c } := by
  obtain ⟨hsign, hdot, hrange⟩ := numericChar_ne hnum
  have hzero : charAt [c] 0 = c := rfl
  simp only [fparseStep, hzero]
  rw [if_neg hsign, if_neg hdot, if_neg hrange, hflag]
  rfl

/-- Behind the point a digit counts for the fraction, and the seventh is an error. -/
theorem fparseStep_fraction (hflag : st.fracFlag = true) :
    fparseStep [c] st 0 =
      if st.dp ≥ 6 then .error .invalidState
      else .ok { st with frac := st.frac * 10 + digit c, dp := st.dp + 1 } := by
  obtain ⟨hsign, hdot, hrange⟩ := numericChar_ne hnum
  have hzero : charAt [c] 0 = c := rfl
  simp only [fparseStep, hzero]
  rw [if_neg hsign, if_neg hdot, if_neg hrange, hflag, if_pos rfl]

end

/-- The loop of `nu_fparse` over the characters `s`. -/
def fparseDigits (s : List Char) (st : FparseState) : Except Vm.Error FparseState :=
  s.foldlM (fun st c => fparseStep [c] st 0) st

/-- The loop over two texts, one behind the other. -/
theorem fparseDigits_append (s t : List Char) (st : FparseState) :
    fparseDigits (s ++ t) st = fparseDigits s st >>= fparseDigits t := List.foldlM_append

/-- Without a minus the loop depends on the characters only, not on their places. -/
theorem foldlM_fparseStep {s : List Char} (h : ∀ c ∈ s, c ≠ '-') (rest : List Char)
    (st : FparseState) :
    (List.range s.length).foldlM (fparseStep (s ++ rest)) st = fparseDigits s st :=
  foldlM_range (f := fparseStep (s ++ rest)) (g := fun st c => fparseStep [c] st 0) (fun _ hi st =>
    fparseStep_char (charAt_append_left hi) (h _ (List.getElem_mem hi)) st) st

/-- The digits in front of the dot. -/
theorem fparseDigits_integer {s : List Char} (h : ∀ c ∈ s, numericChar c = true) :
    fparseDigits s ⟨false, false, 0, 0, 0⟩ =
      .ok ⟨false, false, UInt32.ofNat (digitsValue s), 0, 0⟩ := by
  induction s using List.reverseRecOn with
  | nil => rfl
  | append_singleton s c ih =>
      have hc := h c (by simp)
      rw [fparseDigits_append, ih fun d hd => h d (List.mem_append_left _ hd)]
      show fparseDigits [c] ⟨false, false, UInt32.ofNat (digitsValue s), 0, 0⟩ = _
      rw [fparseDigits, List.foldlM_cons, fparseStep_integer hc rfl, digit_eq hc, digitsValue_snoc,
        UInt32.ofNat_add, UInt32.ofNat_mul]
      rfl

/-- The first six digits behind the dot. -/
theorem fparseDigits_fraction {s : List Char} (h : ∀ c ∈ s, numericChar c = true)
    (hlen : s.length ≤ 6) (inte : UInt32) :
    fparseDigits s ⟨false, true, inte, 0, 0⟩ =
      .ok ⟨false, true, inte, UInt32.ofNat (digitsValue s), UInt32.ofNat s.length⟩ := by
  induction s using List.reverseRecOn with
  | nil => rfl
  | append_singleton s c ih =>
      have hc := h c (by simp)
      rw [List.length_append, List.length_singleton] at hlen
      rw [fparseDigits_append, ih (fun d hd => h d (List.mem_append_left _ hd)) (by omega)]
      -- there is room for another place, so the digit is added
      have hroom : ¬ UInt32.ofNat s.length ≥ 6 := by
        rw [ge_iff_le, UInt32.le_iff_toNat_le, UInt32.toNat_ofNat_of_lt' (by
          show s.length < 2 ^ 32
          omega)]
        show ¬ 6 ≤ s.length
        omega
      show fparseDigits [c]
        ⟨false, true, inte, UInt32.ofNat (digitsValue s), UInt32.ofNat s.length⟩ = _
      rw [fparseDigits, List.foldlM_cons, fparseStep_fraction hc rfl, if_neg hroom, digit_eq hc,
        digitsValue_snoc, List.length_append, UInt32.ofNat_add, UInt32.ofNat_add, UInt32.ofNat_mul]
      rfl

/-- A seventh digit behind the dot is an error. -/
theorem fparseDigits_full {s : List Char} (h : ∀ c ∈ s, numericChar c = true) :
    ∀ {st : FparseState}, st.fracFlag = true → st.dp.toNat ≤ 6 → 6 < st.dp.toNat + s.length →
      fparseDigits s st = .error .invalidState := by
  induction s with
  | nil =>
      intro st _ hdp hlen
      rw [List.length_nil] at hlen
      omega
  | cons c s ih =>
      intro st hflag hdp hlen
      have hc := h c (by simp)
      rw [fparseDigits, List.foldlM_cons, fparseStep_fraction hc hflag]
      -- the seventh place is the error
      by_cases hroom : st.dp ≥ 6
      · rw [if_pos hroom]
        rfl
      · have hlt : st.dp.toNat < 6 := by
          rw [ge_iff_le, UInt32.le_iff_toNat_le] at hroom
          exact Nat.lt_of_not_le hroom
        have hnext : (st.dp + 1).toNat = st.dp.toNat + 1 := by
          rw [UInt32.toNat_add]
          show (st.dp.toNat + 1) % 2 ^ 32 = _
          omega
        rw [if_neg hroom]
        show fparseDigits s _ = _
        refine ih (fun d hd => h d (List.mem_cons_of_mem _ hd)) hflag ?_ ?_
        · show (st.dp + 1).toNat ≤ 6
          omega
        · show 6 < (st.dp + 1).toNat + s.length
          rw [List.length_cons] at hlen
          omega

/-! ### The binary places -/

/-- A power of two that is above the low bits of a number is added by an or. -/
theorem or_shiftLeft {y : UInt32} {i q : Nat} (hi : i < 32) (hy : y.toNat = q * 2 ^ (i + 1))
    (hroom : y.toNat + 2 ^ i < 2 ^ 32) :
    (y ||| 1 <<< UInt32.ofNat i).toNat = y.toNat + 2 ^ i := by
  have hindex : (UInt32.ofNat i).toNat = i := UInt32.toNat_ofNat_of_lt' (by
    show i < 2 ^ 32
    omega)
  have hbit : ((1 : UInt32) <<< UInt32.ofNat i).toNat = 2 ^ i := by
    rw [UInt32.toNat_shiftLeft, hindex, Nat.mod_eq_of_lt hi, UInt32.toNat_one, Nat.one_shiftLeft]
    exact Nat.mod_eq_of_lt (by omega)
  have hlt : 2 ^ i < 2 ^ (i + 1) := Nat.pow_lt_pow_right (by decide) (Nat.lt_succ_self i)
  rw [UInt32.toNat_or, hbit, hy, Nat.mul_comm, ← Nat.two_pow_add_eq_or_of_lt hlt]

/-- One place more of a quotient. -/
theorem div_mod_double {n b : Nat} (hb : 0 < b) :
    n * 2 / b = n / b * 2 + (if b ≤ n % b * 2 then 1 else 0) ∧
      n * 2 % b = n % b * 2 - (if b ≤ n % b * 2 then b else 0) := by
  have hsplit := Nat.div_add_mod n b
  have hlt := Nat.mod_lt n hb
  rw [Nat.div_mod_unique hb]
  split
  · rw [Nat.mul_add, ← Nat.mul_assoc]
    omega
  · rw [Nat.add_zero, ← Nat.mul_assoc]
    omega

/-- The places of a quotient below `2 ^ 16` have room. -/
theorem quotient_lt {m b j : Nat} (hm : m < b * 2 ^ (fixFrac + j)) (hj : j < fixFrac) :
    m * 2 / b * 2 ^ (fixFrac - 1 - j) < 2 ^ 32 := by
  have hquot : m * 2 / b < 2 ^ (fixFrac + j + 1) := by
    rw [pow_succ]
    refine Nat.div_lt_of_lt_mul ?_
    rw [← Nat.mul_assoc]
    exact Nat.mul_lt_mul_of_pos_right hm (by decide)
  calc m * 2 / b * 2 ^ (fixFrac - 1 - j)
      < 2 ^ (fixFrac + j + 1) * 2 ^ (fixFrac - 1 - j) :=
        Nat.mul_lt_mul_of_pos_right hquot (Nat.two_pow_pos _)
    _ = 2 ^ 32 := by
        have hfrac : fixFrac = 16 := rfl
        rw [← pow_add, show fixFrac + j + 1 + (fixFrac - 1 - j) = 32 by omega]

/-- A turn of the long division finds one place more of the quotient `m / base`. -/
theorem fparseBit_step {base : UInt32} {st : UInt32 × UInt32} {m j : Nat} (hpos : 0 < base.toNat)
    (hbase : base.toNat < 2 ^ 31) (hj : j < fixFrac) (hm : m < base.toNat * 2 ^ (fixFrac + j))
    (hrem : st.1.toNat = m % base.toNat)
    (hquot : st.2.toNat = m / base.toNat * 2 ^ (fixFrac - j)) :
    (fparseBit base st j).1.toNat = m * 2 % base.toNat ∧
      (fparseBit base st j).2.toNat = m * 2 / base.toNat * 2 ^ (fixFrac - 1 - j) := by
  obtain ⟨hdiv, hmod⟩ := div_mod_double (n := m) hpos
  have hlt := Nat.mod_lt m hpos
  have hdouble : (st.1 <<< 1).toNat = m % base.toNat * 2 := by
    rw [UInt32.toNat_shiftLeft, hrem]
    show (m % base.toNat) <<< 1 % 2 ^ 32 = _
    rw [Nat.shiftLeft_eq]
    omega
  have hcond : st.1 <<< 1 ≥ base ↔ base.toNat ≤ m % base.toNat * 2 := by
    rw [ge_iff_le, UInt32.le_iff_toNat_le, hdouble]
  have hfrac : fixFrac = 16 := rfl
  have hplace : 2 ^ (fixFrac - j) = 2 * 2 ^ (fixFrac - 1 - j) := by
    rw [← pow_succ', show fixFrac - 1 - j + 1 = fixFrac - j by omega]
  unfold fparseBit
  by_cases hge : base.toNat ≤ m % base.toNat * 2
  · simp only [if_pos hge] at hdiv hmod
    simp only [if_pos (hcond.mpr hge)]
    -- the whole quotient has room, so the new place does not come out at the top
    have hnext : st.2.toNat + 2 ^ (fixFrac - 1 - j) =
        m * 2 / base.toNat * 2 ^ (fixFrac - 1 - j) := by
      rw [hquot, hplace, hdiv]
      ring
    have hroom : st.2.toNat + 2 ^ (fixFrac - 1 - j) < 2 ^ 32 := hnext ▸ quotient_lt hm hj
    refine ⟨?_, ?_⟩
    · rw [UInt32.toNat_sub_of_le _ _ (hcond.mpr hge), hdouble, hmod]
    · rw [or_shiftLeft (by omega) (by rw [hquot, hplace, pow_succ']) hroom, hnext]
  · simp only [if_neg hge] at hdiv hmod
    simp only [if_neg fun h => hge (hcond.mp h)]
    refine ⟨?_, ?_⟩
    · rw [hdouble, hmod, Nat.sub_zero]
    · rw [hquot, hplace, hdiv]
      ring

/-- After `j` turns there are `j` places more of the quotient `n / base`. -/
theorem fparseBit_fold {base x y : UInt32} {n : Nat} (hpos : 0 < base.toNat)
    (hbase : base.toNat < 2 ^ 31) (hn : n < base.toNat * 2 ^ fixFrac)
    (hx : x.toNat = n % base.toNat) (hy : y.toNat = n / base.toNat * 2 ^ fixFrac) :
    ∀ {j : Nat}, j ≤ fixFrac →
      ((List.range j).foldl (fparseBit base) (x, y)).1.toNat = n * 2 ^ j % base.toNat ∧
        ((List.range j).foldl (fparseBit base) (x, y)).2.toNat =
          n * 2 ^ j / base.toNat * 2 ^ (fixFrac - j) := by
  intro j
  induction j with
  | zero =>
      intro _
      simpa using ⟨hx, hy⟩
  | succ j ih =>
      intro hj
      obtain ⟨hrem, hquot⟩ := ih (by omega)
      -- the quotient so far fits into the bits that are left
      have hm : n * 2 ^ j < base.toNat * 2 ^ (fixFrac + j) := by
        rw [pow_add, ← Nat.mul_assoc]
        exact Nat.mul_lt_mul_of_pos_right hn (Nat.two_pow_pos j)
      rw [List.range_succ, List.foldl_append, List.foldl_cons, List.foldl_nil, pow_succ,
        ← Nat.mul_assoc, show fixFrac - (j + 1) = fixFrac - 1 - j by omega]
      exact fparseBit_step hpos hbase hj hm hrem hquot

/-! ### `nu_fparse` -/

section
variable {ip fp : List Char} (hip : ∀ c ∈ ip, numericChar c = true)
  (hfp : ∀ c ∈ fp, numericChar c = true)
include hip

/-- The loop up to the point gives the integer part. -/
theorem fparseDigits_point :
    fparseDigits (ip ++ ['.']) ⟨false, false, 0, 0, 0⟩ =
      .ok ⟨false, true, UInt32.ofNat (digitsValue ip), 0, 0⟩ := by
  rw [fparseDigits_append, fparseDigits_integer hip]
  rfl

include hfp

/-- The digits of a numeral with a dot. -/
theorem fparseDigits_decimal :
    fparseDigits (ip ++ '.' :: fp) ⟨false, false, 0, 0, 0⟩ =
      if fp.length ≤ 6 then
        .ok ⟨false, true, UInt32.ofNat (digitsValue ip), UInt32.ofNat (digitsValue fp),
          UInt32.ofNat fp.length⟩
      else .error .invalidState := by
  rw [List.append_cons, fparseDigits_append, fparseDigits_point hip]
  show fparseDigits fp ⟨false, true, UInt32.ofNat (digitsValue ip), 0, 0⟩ = _
  split
  · rename_i hlen
    exact fparseDigits_fraction hfp hlen _
  · rename_i hlen
    have hzero : (0 : UInt32).toNat = 0 := rfl
    exact fparseDigits_full hfp rfl (Nat.zero_le 6) (by
      show 6 < (0 : UInt32).toNat + fp.length
      omega)

/-- The loop over a decimal depends on its characters only. -/
theorem foldlM_decimal (rest : List Char) :
    (List.range (ip ++ '.' :: fp).length).foldlM (fparseStep (ip ++ '.' :: fp ++ rest))
      ⟨false, false, 0, 0, 0⟩ = fparseDigits (ip ++ '.' :: fp) ⟨false, false, 0, 0, 0⟩ := by
  refine foldlM_fparseStep (fun c hc => ?_) rest _
  rw [List.mem_append, List.mem_cons] at hc
  rcases hc with hc | rfl | hc
  · exact (numericChar_ne (hip c hc)).1
  · decide
  · exact (numericChar_ne (hfp c hc)).1

/-- A numeral with more than six digits behind the dot is an error. -/
theorem fparse_error (hlen : 6 < fp.length) (rest : List Char) :
    fparse (ip ++ '.' :: fp ++ rest) (ip ++ '.' :: fp).length = .error .invalidState := by
  rw [fparse, foldlM_decimal hip hfp, fparseDigits_decimal hip hfp, if_neg (by omega)]
  rfl

end

/-- The table of powers, up to six digits. -/
theorem fastPow10_toNat {k : Nat} (hk : k ≤ 6) : (fastPow10 (UInt32.ofNat k)).toNat = 10 ^ k := by
  interval_cases k <;> rfl

/-- What `nu_fparse` makes of its digits. -/
def fparseFixed (st : FparseState) : Int32 :=
  let fixed := ((List.range fixFrac).foldl (fparseBit (fastPow10 st.dp))
    (st.frac, st.inte <<< UInt32.ofNat fixFrac)).2
  (if st.sign then (if fixed = 0 then 1 else 0) + 1 else fixed).toInt32

/-- The loop, and then the word that is built from its state. -/
theorem fparse_eq (s : List Char) (n : Nat) :
    fparse s n =
      ((List.range n).foldlM (fparseStep s) ⟨false, false, 0, 0, 0⟩).map fparseFixed := by
  unfold fparse
  cases (List.range n).foldlM (fparseStep s) ⟨false, false, 0, 0, 0⟩ with
  | error e => rfl
  | ok st => rfl

/-- The integer part modulo `2 ^ 16`, and the places of the fraction. -/
theorem fparseFixed_eq {i f k : Nat} (hf : f < 10 ^ k) (hk : k ≤ 6) (flag : Bool) :
    ∃ v : UInt32,
      fparseFixed ⟨false, flag, UInt32.ofNat i, UInt32.ofNat f, UInt32.ofNat k⟩ = v.toInt32 ∧
        v.toNat = i % 2 ^ 16 * 2 ^ 16 + f * 2 ^ 16 / 10 ^ k := by
  have hpow : (10 : Nat) ^ k ≤ 10 ^ 6 := Nat.pow_le_pow_right (by decide) hk
  have hpos : 0 < (10 : Nat) ^ k := Nat.pow_pos (by decide)
  have hbase := fastPow10_toNat hk
  have hx : (UInt32.ofNat f).toNat = f := UInt32.toNat_ofNat_of_lt' (by
    show f < 2 ^ 32
    omega)
  have hy : (UInt32.ofNat i <<< UInt32.ofNat fixFrac).toNat = i % 2 ^ 16 * 2 ^ fixFrac := by
    rw [UInt32.toNat_shiftLeft, UInt32.toNat_ofNat']
    show (i % 2 ^ 32) <<< 16 % 2 ^ 32 = i % 2 ^ 16 * 2 ^ 16
    rw [Nat.shiftLeft_eq]
    omega
  -- the integer part and the fraction are the quotient and the remainder of one number
  have hlow := Nat.mod_lt i (Nat.two_pow_pos 16)
  have hn : 10 ^ k * (i % 2 ^ 16) + f < (fastPow10 (UInt32.ofNat k)).toNat * 2 ^ fixFrac := by
    rw [hbase]
    calc 10 ^ k * (i % 2 ^ 16) + f
        < 10 ^ k * (i % 2 ^ 16) + 10 ^ k := Nat.add_lt_add_left hf _
      _ = 10 ^ k * (i % 2 ^ 16 + 1) := (Nat.mul_succ _ _).symm
      _ ≤ 10 ^ k * 2 ^ fixFrac := Nat.mul_le_mul_left _ hlow
  have hrem : (UInt32.ofNat f).toNat =
      (10 ^ k * (i % 2 ^ 16) + f) % (fastPow10 (UInt32.ofNat k)).toNat := by
    rw [hx, hbase, Nat.mul_add_mod, Nat.mod_eq_of_lt hf]
  have hquot : (UInt32.ofNat i <<< UInt32.ofNat fixFrac).toNat =
      (10 ^ k * (i % 2 ^ 16) + f) / (fastPow10 (UInt32.ofNat k)).toNat * 2 ^ fixFrac := by
    rw [hy, hbase, Nat.mul_add_div hpos, Nat.div_eq_of_lt hf, Nat.add_zero]
  obtain ⟨-, hplaces⟩ :=
    fparseBit_fold (by omega) (by omega) hn hrem hquot (Nat.le_refl fixFrac)
  refine ⟨((List.range fixFrac).foldl (fparseBit (fastPow10 (UInt32.ofNat k)))
    (UInt32.ofNat f, UInt32.ofNat i <<< UInt32.ofNat fixFrac)).2, rfl, ?_⟩
  rw [hplaces, hbase, Nat.sub_self, pow_zero, Nat.mul_one, Nat.add_mul, Nat.mul_assoc,
    Nat.mul_add_div hpos]
  rfl

/-- A numeral with a dot gives its integer part modulo `2 ^ 16` and the places of its fraction. -/
theorem fparse_decimal {ip fp : List Char} (hip : ∀ c ∈ ip, numericChar c = true)
    (hfp : ∀ c ∈ fp, numericChar c = true) (hlen : fp.length ≤ 6) (rest : List Char) :
    ∃ v : UInt32, fparse (ip ++ '.' :: fp ++ rest) (ip ++ '.' :: fp).length = .ok v.toInt32 ∧
      v.toNat = digitsValue ip % 2 ^ 16 * 2 ^ 16 + digitsValue fp * 2 ^ 16 / 10 ^ fp.length := by
  obtain ⟨v, hfixed, hv⟩ := fparseFixed_eq (i := digitsValue ip) (digitsValue_lt hfp) hlen true
  refine ⟨v, ?_, hv⟩
  rw [fparse_eq, foldlM_decimal hip hfp, fparseDigits_decimal hip hfp, if_pos hlen]
  exact congrArg Except.ok hfixed

/-- So does one without, which has no fraction. -/
theorem fparse_whole {w : List Char} (h : ∀ c ∈ w, numericChar c = true) (rest : List Char) :
    ∃ v : UInt32, fparse (w ++ rest) w.length = .ok v.toInt32 ∧
      v.toNat = digitsValue w % 2 ^ 16 * 2 ^ 16 := by
  have hone : 0 < 10 ^ 0 := by decide
  obtain ⟨v, hfixed, hv⟩ := fparseFixed_eq (i := digitsValue w) hone (by decide) false
  refine ⟨v, ?_, by simpa using hv⟩
  rw [fparse_eq, foldlM_fparseStep (fun c hc => (numericChar_ne (h c hc)).1),
    fparseDigits_integer h]
  exact congrArg Except.ok hfixed

/-! ### The calls -/

/-- The loop, and then the sign. -/
theorem iparse_eq (s : List Char) (n : Nat) :
    iparse s n = ((List.range n).foldlM (iparseStep s) (false, 0)).map fun st =>
      if st.1 then -st.2 else st.2 := by
  unfold iparse
  cases (List.range n).foldlM (iparseStep s) (false, 0) with
  | error e => rfl
  | ok st => rfl

/-- With wrapping words a turn of the loop is its step. -/
theorem fparseTurn_wrapping (s : List Char) (st : FparseState) (i : UInt32) :
    fparseTurn wrapping s st i = some (fparseStep s st i.toNat) := by
  -- the index of the source is a word, that of the model a number
  have hzero : i ≠ 0 ↔ i.toNat ≠ 0 := not_congr UInt32.toNat_inj.symm
  simp only [fparseTurn, fparseStep, hzero]
  split
  · split <;> rfl
  · split
    · rfl
    · split
      · rfl
      · split
        · split <;> rfl
        · rfl

/-- With wrapping words a turn of the division is its step. -/
theorem fparseDivide_wrapping (base : UInt32) (st : UInt32 × UInt32) {i : UInt32}
    (hi : i.toNat < fixFrac) :
    fparseDivide wrapping base st i = some (.ok (fparseBit base st i.toNat)) := by
  have hplace : UInt32.ofNat fixFrac - 1 - i = UInt32.ofNat (fixFrac - 1 - i.toNat) := by
    rw [UInt32.ofNat_sub (by
      show i.toNat ≤ 15
      exact Nat.le_of_lt_succ hi), UInt32.ofNat_toNat]
    rfl
  simp only [fparseDivide, fparseBit, wrapping_shl, wrapping_sub, liftM_some_bind, hplace]
  split <;> rfl

/-- The sixteen turns of the long division. -/
theorem wordLoop_fparseDivide (base : UInt32) (st : UInt32 × UInt32) :
    wordLoop wrapping (fparseDivide wrapping base) fixFrac (fixFrac + 1) 0 st =
      some (.ok ((List.range fixFrac).foldl (fparseBit base) st)) := by
  have hloop : wordLoop wrapping (fparseDivide wrapping base) fixFrac (fixFrac + 1) 0 st =
      indexLoop (fun st i => pure (fparseBit base st i)) fixFrac (fixFrac + 1) 0 st :=
    wordLoop_wrapping (fun st _ hi => fparseDivide_wrapping base st hi) _ _ _
  rw [hloop, indexLoop_eq_foldlM (by decide), List.foldlM_pure]
  rfl

/-- With wrapping words the result is built without a fault. -/
theorem fparseBuild_wrapping (st : FparseState) :
    fparseBuild wrapping st = some (.ok (fparseFixed st)) := by
  simp only [fparseBuild, wrapping_shl, wrapping_add, liftM_some_bind, wordLoop_fparseDivide]
  unfold fparseFixed
  cases st.sign <;> rfl

/-- A call is its loop. -/
theorem fparseCall_wrapping (fuel : Nat) (s : List Char) (n : Nat) (v : Int32) :
    fparseCall wrapping fuel s n v =
      (indexLoop (fparseStep s) n fuel 0 ⟨false, false, 0, 0, 0⟩).map fun r =>
        parseResult v (r.map fparseFixed) := by
  simp only [fparseCall]
  rw [wordLoop_wrapping fun st i _ => fparseTurn_wrapping s st i]
  match indexLoop (fparseStep s) n fuel 0 ⟨false, false, 0, 0, 0⟩ with
  | none => rfl
  | some (.error e) => rfl
  | some (.ok st) =>
      show Option.map (parseResult v) (fparseBuild wrapping st) = _
      rw [fparseBuild_wrapping]
      rfl

section
variable {s : List Char} {n fuel : Nat} {v : Int32}

/-- A numeral that the index can count is read in one round. -/
theorem iparseCall_of_lt (hn : n < 2 ^ 32) (hfuel : n < fuel) :
    iparseCall fuel s n v = some (parseResult v (iparse s n)) := by
  rw [iparseCall, indexLoop_mono hfuel (indexLoop_eq_foldlM hn), iparse_eq]
  rfl

/-- Below `2 ^ 32` characters a call comes to its end and gives the value of the fold. -/
theorem fparseCall_of_lt (hn : n < 2 ^ 32) (hfuel : n < fuel) :
    fparseCall wrapping fuel s n v = some (parseResult v (fparse s n)) := by
  rw [fparseCall_wrapping, indexLoop_mono hfuel (indexLoop_eq_foldlM hn), fparse_eq]
  rfl

end

end Nucleus.Proofs
