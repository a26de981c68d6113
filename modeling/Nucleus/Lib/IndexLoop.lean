import Mathlib.Algebra.Order.Ring.Nat
import Mathlib.Data.List.Range

/-!
# `Nucleus.Lib.IndexLoop`: loops with a 32-bit index

`indexLoop step n` is the loop `for (i = 0; i < n; ++i)` whose index has 32 bits and whose bound may
have more. The body may stop with an error.

Below `2 ^ 32` the loop is a fold over the numbers below the bound (`indexLoop_eq_foldlM`). From
there on the index comes back to 0 and the loop never comes to its end: it stops with an error, or
it does not stop (`indexLoop_ne_ok`).
-/

set_option autoImplicit false

namespace Nucleus.Lib

variable {σ ε : Type}

/-- The loop from the index `i` and the state `s` on, none if it takes more than `fuel` turns. -/
def indexLoop (step : σ → Nat → Except ε σ) (n : Nat) :
    Nat → UInt32 → σ → Option (Except ε σ)
  | 0, _, _ => none
  | fuel + 1, i, s =>
      if i.toNat < n then
        match step s i.toNat with
        | .error e => some (.error e)
        | .ok s' => indexLoop step n fuel (i + 1) s'
      else some (.ok s)

variable {step : σ → Nat → Except ε σ} {n : Nat} {s : σ}

/-- A turn whose body succeeds. -/
theorem indexLoop_ok {s' : σ} {i : UInt32} (hi : i.toNat < n) (h : step s i.toNat = .ok s')
    (fuel : Nat) : indexLoop step n (fuel + 1) i s = indexLoop step n fuel (i + 1) s' := by
  rw [indexLoop, if_pos hi, h]

/-- A turn whose body fails ends the loop. -/
theorem indexLoop_error {e : ε} {i : UInt32} (hi : i.toNat < n) (h : step s i.toNat = .error e)
    (fuel : Nat) : indexLoop step n (fuel + 1) i s = some (.error e) := by
  rw [indexLoop, if_pos hi, h]

/-- The first `k` turns are a fold, as long as the index does not wrap. -/
theorem indexLoop_turns {k : Nat} (hn : k ≤ n) (hk : k ≤ 2 ^ 32) (fuel : Nat) :
    indexLoop step n (k + fuel) 0 s =
      match (List.range k).foldlM step s with
      | .error e => some (.error e)
      | .ok s' => indexLoop step n fuel (UInt32.ofNat k) s' := by
  induction k generalizing fuel with
  | zero => simp [pure, Except.pure]
  | succ k ih =>
      -- below the bound the counter is the number of turns
      have hlt : k < UInt32.size := Nat.lt_of_succ_le hk
      have hindex : (UInt32.ofNat k).toNat = k := UInt32.toNat_ofNat_of_lt' hlt
      have hnext : UInt32.ofNat k + 1 = UInt32.ofNat (k + 1) := by
        rw [UInt32.ofNat_add]
        rfl
      rw [show k + 1 + fuel = k + (fuel + 1) by omega, ih (by omega) (by omega), List.range_succ,
        List.foldlM_append]
      cases (List.range k).foldlM step s with
      | error e => rfl
      | ok s' =>
          simp only [bind, Except.bind, List.foldlM_cons, List.foldlM_nil]
          cases hstep : step s' k with
          | error e => exact indexLoop_error (by omega) (by rw [hindex, hstep]) fuel
          | ok t =>
              rw [indexLoop_ok (by omega) (by rw [hindex, hstep]) fuel, hnext]
              rfl

/-- Below `2 ^ 32` the loop is the fold. -/
theorem indexLoop_eq_foldlM (hn : n < 2 ^ 32) :
    indexLoop step n (n + 1) 0 s = some ((List.range n).foldlM step s) := by
  rw [indexLoop_turns (Nat.le_refl n) hn.le]
  cases (List.range n).foldlM step s with
  | error e => rfl
  | ok s' =>
      have hindex : (UInt32.ofNat n).toNat = n := UInt32.toNat_ofNat_of_lt' hn
      show indexLoop step n 1 (UInt32.ofNat n) s' = _
      rw [indexLoop, hindex, if_neg (Nat.lt_irrefl n)]

/-- A loop that stops stops in the same way with more turns allowed. -/
theorem indexLoop_mono {r : Except ε σ} : ∀ {fuel fuel' : Nat} {i : UInt32} {s : σ},
    fuel ≤ fuel' → indexLoop step n fuel i s = some r → indexLoop step n fuel' i s = some r := by
  intro fuel
  induction fuel with
  | zero =>
      intro fuel' i s _ h
      cases h
  | succ fuel ih =>
      intro fuel' i s hle h
      -- the longer run takes the same turn
      obtain ⟨fuel', rfl⟩ : ∃ k, fuel' = k + 1 := ⟨fuel' - 1, by omega⟩
      rw [indexLoop] at h ⊢
      split at h
      · rename_i hi
        rw [if_pos hi]
        split at h
        · exact h
        · exact ih (by omega) h
      · rename_i hi
        rw [if_neg hi]
        exact h

/-- However many turns are allowed, it stops in one way. -/
theorem indexLoop_unique {r r' : Except ε σ} {fuel fuel' : Nat} {i : UInt32} {s : σ}
    (h : indexLoop step n fuel i s = some r) (h' : indexLoop step n fuel' i s = some r') :
    r = r' := by
  rcases Nat.le_total fuel fuel' with hle | hle
  · exact Option.some.inj ((indexLoop_mono hle h).symm.trans h')
  · exact Option.some.inj (h.symm.trans (indexLoop_mono hle h'))

/-- From `2 ^ 32` on the loop does not come to its end. -/
theorem indexLoop_ne_ok (hn : 2 ^ 32 ≤ n) {s' : σ} : ∀ (fuel : Nat) (i : UInt32) (s : σ),
    indexLoop step n fuel i s ≠ some (.ok s') := by
  intro fuel
  induction fuel with
  | zero =>
      intro i s h
      cases h
  | succ fuel ih =>
      intro i s h
      have hi : i.toNat < n := Nat.lt_of_lt_of_le i.toNat_lt hn
      cases hstep : step s i.toNat with
      | error e =>
          rw [indexLoop_error hi hstep] at h
          cases h
      | ok t =>
          rw [indexLoop_ok hi hstep] at h
          exact ih _ _ h

/-- A loop whose body keeps an invariant and does not fail then never stops. -/
theorem indexLoop_eq_none (hn : 2 ^ 32 ≤ n) {P : σ → Prop}
    (hstep : ∀ s (i : UInt32), P s → ∃ s', step s i.toNat = .ok s' ∧ P s') :
    ∀ (fuel : Nat) (i : UInt32) (s : σ), P s → indexLoop step n fuel i s = none := by
  intro fuel
  induction fuel with
  | zero => exact fun _ _ _ => rfl
  | succ fuel ih =>
      intro i s hs
      obtain ⟨s', hrun, hs'⟩ := hstep s i hs
      rw [indexLoop_ok (Nat.lt_of_lt_of_le i.toNat_lt hn) hrun]
      exact ih _ _ hs'

/-- A second round of the loop comes when the first one did not fail. -/
theorem indexLoop_rounds (hn : 2 ^ 32 ≤ n) {s' : σ}
    (h : (List.range (2 ^ 32)).foldlM step s = .ok s') (fuel : Nat) :
    indexLoop step n (2 ^ 32 + fuel) 0 s = indexLoop step n fuel 0 s' := by
  rw [indexLoop_turns hn (Nat.le_refl _), h]
  rfl

end Nucleus.Lib
