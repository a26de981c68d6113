import Nucleus.Proofs.Literals
import Nucleus.Spec.Parsers

/-!
# `Nucleus.Proofs.Parsers`: the calls of `nu_fparse` and `nu_iparse`

With the operations of the machine a call is the loop with the 32-bit index (`fparseCall_wrapping`).
With operations that stop it does the same for a numeral that has room (`fparseCall_checked`), since
the words of every turn are bounded by the numeral.
-/

set_option autoImplicit false

namespace Nucleus.Proofs

open Nucleus.Lib
open Nucleus.Vm
open Nucleus.Lang
open Nucleus.Spec

/-! ### With operations that stop -/

/-- A call whose loop comes to its end builds the value from the state there. -/
theorem fparseCall_of_loop {ops : WordOps} {fuel n : Nat} {s : List Char} {st : FparseState}
    (h : wordLoop ops (fparseTurn ops s) n fuel 0 ⟨false, false, 0, 0, 0⟩ = some (.ok st))
    (v : Int32) : fparseCall ops fuel s n v = ((fparseBuild ops st).run).map (parseResult v) := by
  simp only [fparseCall, h]
  rfl

/-- A digit is below ten. -/
theorem digit_lt {c : Char} (h : ¬ (c > '9' ∨ c < '0')) :
    ('0'.val).toNat ≤ c.val.toNat ∧ (c.val - '0'.val).toNat < 10 := by
  rw [not_or] at h
  have hlow : '0'.val ≤ c.val := Char.not_lt.mp h.2
  have hhigh : c.toNat ≤ '9'.toNat := Char.not_lt.mp h.1
  have hnine : '9'.toNat = 57 := rfl
  have hzero : ('0'.val).toNat = 48 := rfl
  refine ⟨hlow, ?_⟩
  rw [UInt32.toNat_sub_of_le _ _ hlow, hzero]
  have hval : c.val.toNat = c.toNat := rfl
  omega

/-- One digit more. -/
theorem checked_digit {x : UInt32} {c : Char} (hc : ¬ (c > '9' ∨ c < '0'))
    (hx : x.toNat * 10 + 10 ≤ 2 ^ 32) :
    checked.sub c.val '0'.val = some (digit c) ∧ checked.mul x 10 = some (x * 10) ∧
      checked.add (x * 10) (digit c) = some (x * 10 + digit c) := by
  obtain ⟨hle, hlt⟩ := digit_lt hc
  have hroom : x.toNat * (10 : UInt32).toNat < 2 ^ 32 := by
    show x.toNat * 10 < 2 ^ 32
    omega
  have hmul : (x * 10).toNat = x.toNat * 10 := by
    rw [UInt32.toNat_mul]
    exact Nat.mod_eq_of_lt hroom
  refine ⟨checked_sub hle, checked_mul hroom, checked_add ?_⟩
  show (x * 10).toNat + (c.val - '0'.val).toNat < 2 ^ 32
  omega

/-- A turn of the loop does not overflow while there is room for one more digit. -/
theorem fparseTurn_checked {st : FparseState} (hinte : st.inte.toNat < 2 ^ 15)
    (hfrac : st.frac.toNat < 10 ^ 6) (s : List Char) (i : UInt32) :
    fparseTurn checked s st i = fparseTurn wrapping s st i := by
  simp only [fparseTurn]
  split
  · rfl
  · split
    · rfl
    · split
      · rfl
      · -- only a digit is computed with: behind the dot there are two words, else one
        rename_i hc
        split
        · split
          · rfl
          · rename_i hroom
            obtain ⟨hsub, hmul, hadd⟩ := checked_digit hc (x := st.frac) (by omega)
            have hdp : st.dp.toNat + (1 : UInt32).toNat < 2 ^ 32 := by
              have hlt : st.dp.toNat < 6 := UInt32.not_le.mp hroom
              have hone : (1 : UInt32).toNat = 1 := rfl
              omega
            simp only [hsub, hmul, hadd, checked_add hdp, liftM_some_bind, wrapping_sub,
              wrapping_mul, wrapping_add]
            rfl
        · obtain ⟨hsub, hmul, hadd⟩ := checked_digit hc (x := st.inte) (by omega)
          simp only [hsub, hmul, hadd, liftM_some_bind, wrapping_sub, wrapping_mul, wrapping_add]
          rfl

/-- The remainder stays below the base. -/
theorem fparseBit_lt {base : UInt32} {st : UInt32 × UInt32} (hrem : st.1.toNat < base.toNat)
    (hbase : base.toNat < 2 ^ 31) (i : Nat) : (fparseBit base st i).1.toNat < base.toNat := by
  have hdouble : (st.1 <<< 1).toNat = st.1.toNat * 2 := by
    rw [UInt32.toNat_shiftLeft]
    show st.1.toNat <<< 1 % 2 ^ 32 = _
    rw [Nat.shiftLeft_eq]
    omega
  simp only [fparseBit]
  split
  · rename_i hge
    rw [UInt32.toNat_sub_of_le _ _ hge]
    omega
  · rename_i hge
    exact UInt32.not_le.mp hge

/-- A turn of the division does not overflow while the remainder is below the base. -/
theorem fparseDivide_checked {base : UInt32} {st : UInt32 × UInt32} {i : UInt32}
    (hrem : st.1.toNat < base.toNat) (hbase : base.toNat < 2 ^ 31) (hi : i.toNat < fixFrac) :
    fparseDivide checked base st i = fparseDivide wrapping base st i := by
  have hplaces : (UInt32.ofNat fixFrac - 1).toNat = 15 := rfl
  have hlast : i.toNat ≤ (UInt32.ofNat fixFrac - 1).toNat := Nat.le_of_lt_succ hi
  have hplace : (UInt32.ofNat fixFrac - 1 - i).toNat ≤ 15 := by
    rw [UInt32.toNat_sub_of_le _ _ hlast]
    omega
  have hbit : 2 ^ (UInt32.ofNat fixFrac - 1 - i).toNat ≤ 2 ^ 15 :=
    Nat.pow_le_pow_right (by decide) hplace
  -- the remainder is below the base, so its double fits in a word
  have hdouble : st.1.toNat * 2 ^ (1 : UInt32).toNat < 2 ^ 32 := by
    show st.1.toNat * 2 < 2 ^ 32
    omega
  have hone : (1 : UInt32).toNat * 2 ^ (UInt32.ofNat fixFrac - 1 - i).toNat < 2 ^ 32 := by
    rw [UInt32.toNat_one]
    omega
  simp only [fparseDivide, checked_shl (by decide) hdouble,
    checked_sub (by decide : (1 : UInt32).toNat ≤ (UInt32.ofNat fixFrac).toNat), checked_sub hlast,
    checked_shl (Nat.lt_of_le_of_lt hplace (by decide)) hone, liftM_some_bind, wrapping_shl,
    wrapping_sub]
  split
  · rename_i hge
    rw [checked_sub hge]
    rfl
  · rfl

/-- The result is built without an overflow. -/
theorem fparseBuild_checked {st : FparseState} (hinte : st.inte.toNat < 2 ^ 15)
    (hrem : st.frac.toNat < (fastPow10 st.dp).toNat) (hbase : (fastPow10 st.dp).toNat < 2 ^ 31) :
    fparseBuild checked st = fparseBuild wrapping st := by
  -- the invariant of the division: the remainder is below the base
  have hloop : ∀ fixed, wordLoop checked (fparseDivide checked (fastPow10 st.dp)) fixFrac
      (fixFrac + 1) 0 (st.frac, fixed) =
      wordLoop wrapping (fparseDivide wrapping (fastPow10 st.dp)) fixFrac (fixFrac + 1) 0
        (st.frac, fixed) := by
    intro fixed
    refine wordLoop_checked (P := fun _ st' => st'.1.toNat < (fastPow10 st.dp).toNat) (by decide)
      (fun st' i hi hst => fparseDivide_checked hst hbase hi) (fun st' t i hi hst hrun => ?_) _
      (Nat.zero_le _) hrem
    rw [fparseDivide_wrapping _ _ hi] at hrun
    cases hrun
    exact fparseBit_lt hst hbase _
  have hshift : st.inte.toNat * 2 ^ (UInt32.ofNat fixFrac).toNat < 2 ^ 32 := by
    show st.inte.toNat * 2 ^ 16 < 2 ^ 32
    omega
  -- the logical negation of the source is 0 or 1
  have hnot : ∀ fixed : UInt32, checked.add (if fixed = 0 then 1 else 0) 1 =
      wrapping.add (if fixed = 0 then 1 else 0) 1 := by
    intro fixed
    split <;> exact checked_add (by decide)
  simp only [fparseBuild, hloop, checked_shl (by decide) hshift, wrapping_shl, hnot]

/-! ### Decimals -/

/-- More digits do not make the value smaller. -/
theorem digitsValue_le_append (s t : List Char) : digitsValue s ≤ digitsValue (s ++ t) := by
  induction t using List.reverseRecOn with
  | nil => rw [List.append_nil]
  | append_singleton t c ih =>
      rw [← List.append_assoc, digitsValue_snoc]
      omega

/-- Fewer digits do not make the value larger. -/
theorem digitsValue_take_le (s : List Char) (k : Nat) : digitsValue (s.take k) ≤ digitsValue s := by
  conv => rhs; rw [← List.take_append_drop k s]
  exact digitsValue_le_append _ _

/-- A word is at most the number it was made from. -/
theorem toNat_ofNat_le (n : Nat) : (UInt32.ofNat n).toNat ≤ n := by
  rw [UInt32.toNat_ofNat']
  exact Nat.mod_le _ _

/-- The digits that have been read have as much room as the numeral. -/
theorem fparseDigits_take_bounds {d : Decimal} (hint : digitsValue d.ip < 2 ^ 15)
    (hlen : d.fp.length ≤ 6) {k : Nat} {st : FparseState}
    (hst : fparseDigits (d.text.take k) ⟨false, false, 0, 0, 0⟩ = .ok st) :
    st.inte.toNat < 2 ^ 15 ∧ st.frac.toNat < 10 ^ 6 := by
  -- a prefix of digits is read as the digits that it has
  have htake : ∀ {s : List Char} {j : Nat}, (∀ c ∈ s, numericChar c = true) →
      ∀ c ∈ s.take j, numericChar c = true := fun h c hc => h c (List.mem_of_mem_take hc)
  rw [Decimal.text] at hst
  rcases Nat.lt_or_ge d.ip.length k with hk | hk
  · obtain ⟨j, rfl⟩ := Nat.exists_eq_add_of_lt hk
    have hshort : (d.fp.take j).length ≤ 6 := (List.length_take_le' _ _).trans hlen
    rw [Nat.add_assoc, List.take_length_add_append, List.take_succ_cons,
      fparseDigits_decimal d.ip_digits (htake d.fp_digits), if_pos hshort] at hst
    cases hst
    refine ⟨Nat.lt_of_le_of_lt (toNat_ofNat_le _) hint, Nat.lt_of_le_of_lt (toNat_ofNat_le _) ?_⟩
    exact Nat.lt_of_lt_of_le (digitsValue_lt (htake d.fp_digits))
      (Nat.pow_le_pow_right (by decide) hshort)
  · -- the dot has not been read
    rw [List.take_append_of_le_length hk, fparseDigits_integer (htake d.ip_digits)] at hst
    cases hst
    have hzero : (0 : UInt32).toNat < 10 ^ 6 := by decide
    exact ⟨Nat.lt_of_le_of_lt ((toNat_ofNat_le _).trans (digitsValue_take_le _ _)) hint, hzero⟩

/-- The binary places of a decimal are a fraction. -/
theorem places_lt (d : Decimal) : digitsValue d.fp * 2 ^ 16 / 10 ^ d.fp.length < 2 ^ 16 :=
  Nat.div_lt_of_lt_mul (Nat.mul_lt_mul_of_pos_right (digitsValue_lt d.fp_digits) (by decide))

/-- No character of a decimal is a sign. -/
theorem decimal_ne_sign (d : Decimal) : ∀ c ∈ d.text, c ≠ '-' := by
  intro c hc
  rw [Decimal.text, List.mem_append, List.mem_cons] at hc
  rcases hc with hc | rfl | hc
  · exact (numericChar_ne (d.ip_digits c hc)).1
  · decide
  · exact (numericChar_ne (d.fp_digits c hc)).1

/-- A turn reads the next character. -/
theorem fparseDigits_take_succ {s : List Char} (hs : ∀ c ∈ s, c ≠ '-') (rest : List Char) {k : Nat}
    (hk : k < s.length) {init st : FparseState} (hst : fparseDigits (s.take k) init = .ok st) :
    fparseDigits (s.take (k + 1)) init = fparseStep (s ++ rest) st k := by
  have hstep : fparseStep (s ++ rest) st k = fparseStep [s[k]] st 0 :=
    fparseStep_char (charAt_append_left hk) (hs _ (List.getElem_mem hk)) st
  rw [List.take_succ_eq_append_getElem hk, fparseDigits_append, hst, hstep]
  show fparseDigits [s[k]] st = _
  rw [fparseDigits, List.foldlM_cons]
  cases fparseStep [s[k]] st 0 with
  | error e => rfl
  | ok st' => rfl

section
variable {d : Decimal} (hint : digitsValue d.ip < 2 ^ 15) (hlen : d.fp.length ≤ 6)
include hint hlen

/-- Nothing wraps around in a call that has room. -/
theorem fparseCall_checked (hcount : d.text.length < 2 ^ 32) (rest : List Char) (v : Int32) :
    fparseCall checked (d.text.length + 1) (d.text ++ rest) d.text.length v =
      fparseCall wrapping (d.text.length + 1) (d.text ++ rest) d.text.length v := by
  -- in front of turn `k` the state is that of the first `k` characters
  have hloop : wordLoop checked (fparseTurn checked (d.text ++ rest)) d.text.length
      (d.text.length + 1) 0 ⟨false, false, 0, 0, 0⟩ =
      wordLoop wrapping (fparseTurn wrapping (d.text ++ rest)) d.text.length
        (d.text.length + 1) 0 ⟨false, false, 0, 0, 0⟩ := by
    refine wordLoop_checked
      (P := fun k st => fparseDigits (d.text.take k) ⟨false, false, 0, 0, 0⟩ = .ok st) hcount
      (fun st i _ hst => ?_) (fun st st' i hi hst hrun => ?_) _ (Nat.zero_le _) rfl
    · obtain ⟨hinte, hfrac⟩ := fparseDigits_take_bounds hint hlen hst
      exact fparseTurn_checked hinte hfrac _ i
    · rw [fparseTurn_wrapping] at hrun
      rw [fparseDigits_take_succ (decimal_ne_sign d) rest hi hst]
      exact Option.some.inj hrun
  have hfinal : wordLoop wrapping (fparseTurn wrapping (d.text ++ rest)) d.text.length
      (d.text.length + 1) 0 ⟨false, false, 0, 0, 0⟩ =
      some (fparseDigits d.text ⟨false, false, 0, 0, 0⟩) := by
    rw [wordLoop_wrapping fun st i _ => fparseTurn_wrapping _ st i, indexLoop_eq_foldlM hcount,
      foldlM_fparseStep (decimal_ne_sign d)]
  have hdigits : fparseDigits d.text ⟨false, false, 0, 0, 0⟩ =
      .ok ⟨false, true, UInt32.ofNat (digitsValue d.ip), UInt32.ofNat (digitsValue d.fp),
        UInt32.ofNat d.fp.length⟩ := by
    rw [Decimal.text, fparseDigits_decimal d.ip_digits d.fp_digits, if_pos hlen]
  have hbuild : fparseBuild checked ⟨false, true, UInt32.ofNat (digitsValue d.ip),
      UInt32.ofNat (digitsValue d.fp), UInt32.ofNat d.fp.length⟩ =
      fparseBuild wrapping ⟨false, true, UInt32.ofNat (digitsValue d.ip),
        UInt32.ofNat (digitsValue d.fp), UInt32.ofNat d.fp.length⟩ := by
    have hpow : (10 : Nat) ^ d.fp.length ≤ 10 ^ 6 := Nat.pow_le_pow_right (by decide) hlen
    have hbase := fastPow10_toNat hlen
    have hfrac := digitsValue_lt d.fp_digits
    refine fparseBuild_checked ?_ ?_ ?_
    · exact Nat.lt_of_le_of_lt (toNat_ofNat_le _) hint
    · exact Nat.lt_of_le_of_lt (toNat_ofNat_le _) (hbase ▸ hfrac)
    · show (fastPow10 (UInt32.ofNat d.fp.length)).toNat < 2 ^ 31
      omega
  have hwrapping := hfinal.trans (congrArg some hdigits)
  rw [fparseCall_of_loop hwrapping, fparseCall_of_loop (hloop.trans hwrapping), hbuild]

end

/-! ### Rounding down -/

/-- A decimal of fewer than `2 ^ 32` characters that fits is rounded down. -/
theorem roundsDown_of_countable {d : Decimal} (hint : digitsValue d.ip < 2 ^ 15)
    (hlen : d.fp.length ≤ 6) (hcount : d.text.length < 2 ^ 32) (rest : List Char) (v : Int32) :
    RoundsDown d rest v := by
  obtain ⟨r, hrun, hr⟩ := fparse_decimal d.ip_digits d.fp_digits hlen rest
  have hcall : fparseCall wrapping (d.text.length + 1) (d.text ++ rest) d.text.length v =
      some (.ok (), r.toInt32) := by
    rw [fparseCall_of_lt hcount (Nat.lt_succ_self _), Decimal.text, hrun]
    rfl
  have hplaces := places_lt d
  have hvalue : r.toNat = d.fixed := by
    rw [hr, Decimal.fixed, Nat.mod_eq_of_lt (Nat.lt_trans hint (by decide))]
  have hroom : r.toNat < 2 ^ 31 := by
    rw [hvalue, Decimal.fixed]
    omega
  refine ⟨_, _, hcall, ?_, ?_⟩
  · rw [fparseCall_checked hint hlen hcount, hcall]
  · rw [toInt_toInt32_of_lt hroom, hvalue]

/-- With a seventh decimal the call fails when it comes to an end. -/
theorem rejects_iff {d : Decimal} (hlen : 6 < d.fp.length) (rest : List Char) (v : Int32) :
    Rejects d rest v ↔ d.ip.length < 2 ^ 32 := by
  rw [Rejects, Decimal.text]
  constructor
  · rintro ⟨fuel, e, h⟩
    by_contra hwide
    rw [fparseCall_endless d.ip_digits (Nat.le_of_not_lt hwide) rest] at h
    cases h
  · intro hlt
    -- the index may wrap behind the dot, but then the digits are too many before it has
    by_cases hcount : (d.ip ++ '.' :: d.fp).length < 2 ^ 32
    · refine ⟨(d.ip ++ '.' :: d.fp).length + 1, .invalidState, ?_⟩
      rw [fparseCall_of_lt hcount (Nat.lt_succ_self _),
        fparse_error d.ip_digits d.fp_digits hlen rest]
      rfl
    · exact ⟨_, _, fparseCall_of_error
        (fparseLoop_long d.ip_digits d.fp_digits (Nat.le_of_not_lt hcount) hlt rest)⟩

/-- `nu_fparse` rounds decimals down, and rejects those with more than six places, as far as its
index counts. -/
theorem parsesDecimal_iff (d : Decimal) (rest : List Char) (v : Int32) :
    ParsesDecimal d rest v ↔ d.Countable := by
  constructor
  · rintro ⟨hround, hreject⟩
    refine ⟨fun hint hlen => ?_, fun hlen => (rejects_iff hlen rest v).mp (hreject hlen)⟩
    obtain ⟨fuel, r, hcall, -, -⟩ := hround hint hlen
    exact (fparseCall_ok hcall).1
  · rintro ⟨hround, hreject⟩
    exact ⟨fun hint hlen => roundsDown_of_countable hint hlen (hround hint hlen) rest v,
      fun hlen => (rejects_iff hlen rest v).mpr (hreject hlen)⟩

/-- The digit of the witness. -/
theorem numericChar_five : ∀ c ∈ ['5'], numericChar c = true := List.forall_mem_singleton.mpr rfl

/-- A half with `2 ^ 32` zeros in front of the dot. -/
def paddedHalf : Decimal where
  ip := List.replicate (2 ^ 32) '0'
  fp := ['5']
  ip_digits := fun _ hc => List.eq_of_mem_replicate hc ▸ (by decide)
  fp_digits := numericChar_five

/-- Zeros have the value 0. -/
theorem digitsValue_zeros (k : Nat) : digitsValue (List.replicate k '0') = 0 := by
  induction k with
  | zero => rfl
  | succ k ih =>
      rw [List.replicate_succ', digitsValue_snoc, ih]
      rfl

/-- Its index does not come to the end of a numeral of `2 ^ 32` characters. -/
theorem not_parsesDecimal_paddedHalf : ¬ ParsesDecimal paddedHalf [] 0 := by
  intro h
  have hint : digitsValue paddedHalf.ip < 2 ^ 15 := by
    show digitsValue (List.replicate (2 ^ 32) '0') < 2 ^ 15
    rw [digitsValue_zeros]
    decide
  have hwide : 2 ^ 32 ≤ paddedHalf.text.length := by
    show 2 ^ 32 ≤ (List.replicate (2 ^ 32) '0' ++ ['.', '5']).length
    rw [List.length_append, List.length_replicate]
    exact Nat.le_add_right _ _
  obtain ⟨fuel, r, hcall, -, -⟩ := h.1 hint (by decide)
  exact absurd (fparseCall_ok hcall).1 (Nat.not_lt.mpr hwide)

end Nucleus.Proofs
