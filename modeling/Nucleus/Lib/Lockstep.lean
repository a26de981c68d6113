import Nucleus.Lib.Prog

/-!
# `Nucleus.Lib.Lockstep`: two programs side by side

Two programs on states of two kinds run in lockstep when, from states that are related, they end
together: with the same error, or with results that are related, and in related states. A sequence
runs in lockstep when its parts do (`Lockstep.bind`).
-/

set_option autoImplicit false

namespace Nucleus.Lib

namespace Prog

variable {σ τ ε α β γ δ : Type}

/-- Two outcomes that agree. -/
inductive Together (R : σ → τ → Prop) (Q : α → β → Prop) :
    Option (Except ε α × σ) → Option (Except ε β × τ) → Prop where
  | none : Together R Q none none
  | error {e : ε} {s : σ} {t : τ} : R s t → Together R Q (some (.error e, s)) (some (.error e, t))
  | ok {a : α} {b : β} {s : σ} {t : τ} : Q a b → R s t →
      Together R Q (some (.ok a, s)) (some (.ok b, t))

/-- From related states the programs end together. -/
def Lockstep (R : σ → τ → Prop) (Q : α → β → Prop) (m : Prog σ ε α) (m' : Prog τ ε β) : Prop :=
  ∀ s t, R s t → Together R Q (m s) (m' t)

variable {R : σ → τ → Prop} {Q : α → β → Prop} {Q' : γ → δ → Prop}

/-- Two values in relation, and no step. -/
theorem Lockstep.pure {a : α} {b : β} (h : Q a b) :
    Lockstep R Q (pure a : Prog σ ε α) (pure b : Prog τ ε β) := fun _ _ hR => .ok h hR

/-- Both runs stop with the same error. -/
theorem lockstep_fail (e : ε) : Lockstep R Q (fail e : Prog σ ε α) (fail e : Prog τ ε β) :=
  fun _ _ hR => .error hR

/-- Neither run has an end. -/
theorem lockstep_diverge : Lockstep R Q (diverge : Prog σ ε α) (diverge : Prog τ ε β) :=
  fun _ _ _ => .none

/-- A part of the state, when the two sides need not agree in it. -/
theorem Lockstep.gets {f : σ → α} {g : τ → β} (h : ∀ s t, R s t → Q (f s) (g t)) :
    Lockstep R Q (gets f : Prog σ ε α) (gets g : Prog τ ε β) := fun s t hR => .ok (h s t hR) hR

/-- Runs in lockstep go on in lockstep. -/
theorem Lockstep.bind {m : Prog σ ε α} {m' : Prog τ ε β} {f : α → Prog σ ε γ}
    {g : β → Prog τ ε δ} (h : Lockstep R Q m m') (hf : ∀ a b, Q a b → Lockstep R Q' (f a) (g b)) :
    Lockstep R Q' (m >>= f) (m' >>= g) := by
  intro s t hR
  have hst := h s t hR
  generalize hm : m s = o at hst
  generalize hm' : m' t = o' at hst
  cases hst with
  | none =>
      rw [bind_run_none hm, bind_run_none hm']
      exact .none
  | error hR' =>
      rw [bind_run_error hm, bind_run_error hm']
      exact .error hR'
  | ok hQ hR' =>
      rw [bind_run_ok hm, bind_run_ok hm']
      exact hf _ _ hQ _ _ hR'

/-- A choice that both runs make alike. -/
theorem lockstep_ite {c : Prop} [Decidable c] {m k : Prog σ ε α} {m' k' : Prog τ ε β}
    (hm : Lockstep R Q m m') (hk : Lockstep R Q k k') :
    Lockstep R Q (if c then m else k) (if c then m' else k') := by
  split
  · exact hm
  · exact hk

end Prog

end Nucleus.Lib
