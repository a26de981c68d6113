import Nucleus.Proofs.Parsers

/-!
# `Nucleus.Proofs.Signs`: the minus in front of a numeral

`nu_iparse` negates the value of the digits (`iparse_minus`). `nu_fparse` wants to complement the
bits and add one, but it takes the logical negation, so behind a minus it gives 1 or 2
(`fparse_minus`).
-/

set_option autoImplicit false

namespace Nucleus.Proofs

open Nucleus.Lib
open Nucleus.Vm
open Nucleus.Lang
open Nucleus.Spec

/-! ### `nu_iparse` -/

/-- A loop over the indices of a text goes on over the characters behind the first one. -/
theorem foldlM_range_succ {σ ε : Type} {f : σ → Nat → Except ε σ} {g : σ → Char → Except ε σ}
    {s : List Char} {st st' : σ} (hfirst : f st 0 = .ok st')
    (h : ∀ i (hi : i < s.length) (st : σ), f st (i + 1) = g st s[i]) :
    (List.range (s.length + 1)).foldlM f st = s.foldlM g st' := by
  rw [List.range_succ_eq_map, List.foldlM_cons, hfirst, ← foldlM_range h]
  show List.foldlM f st' ((List.range s.length).map Nat.succ) = _
  rw [List.foldlM_map]

/-- A minus negates. -/
theorem iparse_minus {t : List Char} (h : ∀ c ∈ t, numericChar c = true) (rest : List Char) :
    iparse ('-' :: t ++ rest) (t.length + 1) = .ok (-Int32.ofNat (digitsValue t)) := by
  have hfold : (List.range (t.length + 1)).foldlM (iparseStep ('-' :: t ++ rest)) (false, 0) =
      iparseDigits t (true, 0) := by
    refine foldlM_range_succ rfl fun i hi st => ?_
    have hchar : charAt ('-' :: t ++ rest) (i + 1) = t[i] := charAt_append_left (t := rest) hi
    exact iparseStep_char hchar (numericChar_ne (h _ (List.getElem_mem hi))).1 st
  rw [iparse_eq, hfold, iparseDigits_eq h]
  rfl

/-! ### `nu_fparse` -/

/-- The sign stays. -/
theorem fparseStep_sign {s : List Char} {st st' : FparseState} {i : Nat} (hsign : st.sign = true)
    (h : fparseStep s st i = .ok st') : st'.sign = true := by
  simp only [fparseStep] at h
  -- the sign is set by a leading minus and cleared nowhere
  split at h
  · split at h
    · cases h
    · cases h
      rfl
  · split at h
    · cases h
      exact hsign
    · split at h
      · cases h
      · split at h
        · split at h
          · cases h
          · cases h
            exact hsign
        · cases h
          exact hsign

/-- A sign that has been read stays. -/
theorem foldlM_sign {s : List Char} {l : List Nat} {st st' : FparseState} (hsign : st.sign = true)
    (h : l.foldlM (fparseStep s) st = .ok st') : st'.sign = true := by
  induction l generalizing st with
  | nil =>
      cases h
      exact hsign
  | cons i l ih =>
      rw [List.foldlM_cons] at h
      match hstep : fparseStep s st i with
      | .error e =>
          rw [hstep] at h
          cases h
      | .ok st'' =>
          rw [hstep] at h
          exact ih (fparseStep_sign hsign hstep) h

/-- Behind a minus the value is a logical negation and one. -/
theorem fparseFixed_sign {st : FparseState} (hsign : st.sign = true) :
    (fparseFixed st).toInt = 1 ∨ (fparseFixed st).toInt = 2 := by
  simp only [fparseFixed, hsign, if_true]
  split
  · exact Or.inr rfl
  · exact Or.inl rfl

/-- So a call on a numeral with a minus gives 1 or 2. -/
theorem fparse_minus {t rest : List Char} {n : Nat} {r : Int32}
    (h : fparse ('-' :: t ++ rest) (n + 1) = .ok r) : r.toInt = 1 ∨ r.toInt = 2 := by
  -- the first turn sets the sign, and no later one takes it back
  have hfirst : fparseStep ('-' :: t ++ rest) ⟨false, false, 0, 0, 0⟩ 0 =
      .ok ⟨true, false, 0, 0, 0⟩ := rfl
  rw [fparse_eq, List.range_succ_eq_map, List.foldlM_cons, hfirst] at h
  match hfold : ((List.range n).map Nat.succ).foldlM (fparseStep ('-' :: t ++ rest))
      ⟨true, false, 0, 0, 0⟩ with
  | .error e =>
      simp only [bind, Except.bind, hfold] at h
      cases h
  | .ok st =>
      simp only [bind, Except.bind, hfold] at h
      cases h
      exact fparseFixed_sign (foldlM_sign rfl hfold)

/-- A numeral without a minus is not negative. -/
theorem fparse_nonneg {t : List Char} (h : NumeralParser.fparse.HasRoom t) (rest : List Char) :
    ∃ r : Int32, fparse (t ++ rest) t.length = .ok r ∧ 0 ≤ r.toInt := by
  cases h with
  | whole ht hroom =>
      obtain ⟨v, hrun, hv⟩ := fparse_whole ht rest
      refine ⟨_, hrun, ?_⟩
      rw [toInt_toInt32_of_lt (by omega)]
      exact Int.natCast_nonneg _
  | decimal d hlen hroom =>
      obtain ⟨v, hrun, hv⟩ := fparse_decimal d.ip_digits d.fp_digits hlen rest
      have hplaces := places_lt d
      refine ⟨_, hrun, ?_⟩
      rw [toInt_toInt32_of_lt (by omega)]
      exact Int.natCast_nonneg _

/-! ### Both parsers -/

/-- `nu_fparse` does not negate. -/
theorem not_negates_fparse {t : List Char} (h : NumeralParser.fparse.HasRoom t) (rest : List Char)
    (v : Int32) : ¬ Negates .fparse t rest v := by
  rintro ⟨fuel, r, r', hplain, hminus, hneg⟩
  obtain ⟨r'', hrun, hnonneg⟩ := fparse_nonneg h rest
  have hr : r = r'' := Except.ok.inj ((fparseCall_ok hplain).2.symm.trans hrun)
  rw [hr] at hneg
  -- the opposite of a number that is not negative is neither 1 nor 2
  rcases fparse_minus (fparseCall_ok hminus).2 with hone | htwo
  · omega
  · omega

/-- With a minus `nu_iparse` gives the negated value when it comes to its end. -/
theorem negates_iparse_iff {t : List Char} (h : NumeralParser.iparse.HasRoom t) (rest : List Char)
    (v : Int32) : Negates .iparse t rest v ↔ t.length + 1 < 2 ^ 32 := by
  cases h with
  | integer ht hroom =>
  -- of the two numerals the one with the minus is longer
  constructor
  · rintro ⟨fuel, r, r', -, hminus, -⟩
    exact iparseCall_ok hminus
  · intro hcount
    refine ⟨t.length + 2, Int32.ofNat (digitsValue t), -Int32.ofNat (digitsValue t), ?_, ?_, ?_⟩
    · show iparseCall _ _ _ _ = _
      rw [iparseCall_of_lt (by omega) (by omega), iparse_digits ht]
      rfl
    · show iparseCall _ _ _ _ = _
      rw [iparseCall_of_lt hcount (by omega), iparse_minus ht]
      rfl
    · have hvalue : (Int32.ofNat (digitsValue t)).toInt = digitsValue t :=
        Int32.toInt_ofNat_of_lt hroom
      rw [Int32.toInt_neg, hvalue]
      exact Int.bmod_eq_of_le (by omega) (by omega)

/-- A minus negates for `nu_iparse`, as far as its index counts, and never for `nu_fparse`. -/
theorem negates_iff {p : NumeralParser} {t : List Char} (h : p.HasRoom t) (rest : List Char)
    (v : Int32) : Negates p t rest v ↔ p = .iparse ∧ t.length + 1 < 2 ^ 32 := by
  cases p with
  | fparse => exact iff_of_false (not_negates_fparse h rest v) (by rintro ⟨⟨⟩, -⟩)
  | iparse => simpa using negates_iparse_iff h rest v

/-- `42` and `-42`. -/
theorem negates_iff_answer :
    Negates .iparse ['4', '2'] [] 0 ↔
      NumeralParser.iparse = .iparse ∧ ['4', '2'].length + 1 < 2 ^ 32 :=
  negates_iff (.integer (List.all_eq_true.mp (by decide)) (by decide)) [] 0

/-- The numeral `1.5`. -/
def oneAndHalf : Decimal where
  ip := ['1']
  fp := ['5']
  ip_digits := List.forall_mem_singleton.mpr rfl
  fp_digits := numericChar_five

/-- It has room, and `-1.5` is not its opposite. -/
theorem not_negates_oneAndHalf :
    NumeralParser.fparse.HasRoom oneAndHalf.text ∧ ¬ Negates .fparse oneAndHalf.text [] 0 := by
  have hroom : NumeralParser.fparse.HasRoom oneAndHalf.text :=
    .decimal oneAndHalf (by decide) (by decide)
  exact ⟨hroom, not_negates_fparse hroom [] 0⟩

end Nucleus.Proofs
