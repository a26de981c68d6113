import Mathlib.Data.List.Forall2

/-!
# `Nucleus.Lib.Trace`: runs of a system with inputs and outputs

A system takes an input and gives an output with each step. A simulation between two systems follows
a run of the one by a run of the other (`Trace.simulate`). Where two systems can only step alike,
any two of their runs with the same inputs are alike (`Trace.agree`).
-/

set_option autoImplicit false

namespace Nucleus.Lib

variable {σ τ ι ο ο' : Type}

/-- A run: its inputs, its outputs, and the states at its ends. -/
inductive Trace (step : σ → ι → ο → σ → Prop) : List ι → List ο → σ → σ → Prop where
  | refl (s : σ) : Trace step [] [] s s
  | cons {i : ι} {o : ο} {is : List ι} {os : List ο} {s s' s'' : σ} : step s i o s' →
      Trace step is os s' s'' → Trace step (i :: is) (o :: os) s s''

variable {step : σ → ι → ο → σ → Prop} {step' : τ → ι → ο' → τ → Prop} {R : σ → τ → Prop}
  {Q : ο → ο' → Prop}

/-- Each step of the one system is followed by a step of the other. -/
theorem Trace.simulate
    (hstep : ∀ s t i o s', R s t → step s i o s' → ∃ o' t', step' t i o' t' ∧ Q o o' ∧ R s' t')
    {is : List ι} {os : List ο} {s s' : σ} {t : τ} (h : Trace step is os s s') (hR : R s t) :
    ∃ os' t', Trace step' is os' t t' ∧ List.Forall₂ Q os os' ∧ R s' t' := by
  induction h generalizing t with
  | refl s => exact ⟨[], t, .refl t, .nil, hR⟩
  | cons hfirst _ ih =>
      obtain ⟨o', t₁, hfirst', hQ, hR'⟩ := hstep _ _ _ _ _ hR hfirst
      obtain ⟨os', t', hrest, hall, hend⟩ := ih hR'
      exact ⟨o' :: os', t', .cons hfirst' hrest, .cons hQ hall, hend⟩

/-- Whenever both systems step, they step alike. -/
theorem Trace.agree
    (hstep : ∀ s t i o o' s' t', R s t → step s i o s' → step' t i o' t' → Q o o' ∧ R s' t')
    {is : List ι} {os : List ο} {os' : List ο'} {s s' : σ} {t t' : τ} (h : Trace step is os s s')
    (h' : Trace step' is os' t t') (hR : R s t) : List.Forall₂ Q os os' := by
  induction h generalizing t os' with
  | refl s =>
      cases h'
      exact .nil
  | cons hfirst _ ih =>
      cases h' with
      | cons hfirst' hrest' =>
          obtain ⟨hQ, hR'⟩ := hstep _ _ _ _ _ _ _ hR hfirst hfirst'
          exact .cons hQ (ih hrest' hR')

end Nucleus.Lib
