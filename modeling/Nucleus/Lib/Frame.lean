import Nucleus.Lib.Prog

/-!
# `Nucleus.Lib.Frame`: what a program leaves as it was

`Keeps view m` says that every run of `m` that ends, with a result or an error, leaves the view of
the state as it was. There is one rule a combinator, and none of them asks what the run does.
-/

set_option autoImplicit false

namespace Nucleus.Lib

namespace Prog

variable {σ ε α β γ : Type} {view : σ → γ}

/-- No run of `m` changes the view of the state. -/
def Keeps (view : σ → γ) (m : Prog σ ε α) : Prop :=
  ∀ s r s', m s = some (r, s') → view s' = view s

/-- Returning a value keeps every view. -/
theorem keeps_pure (a : α) : Keeps view (pure a : Prog σ ε α) := by
  intro s r s' h
  cases h
  rfl

/-- An error keeps every view. -/
theorem keeps_fail (e : ε) : Keeps view (fail e : Prog σ ε α) := by
  intro s r s' h
  cases h
  rfl

/-- Reading keeps every view. -/
theorem keeps_gets (f : σ → α) : Keeps view (gets f : Prog σ ε α) := by
  intro s r s' h
  cases h
  rfl

/-- A run without an end has no state that could differ. -/
theorem keeps_diverge : Keeps view (diverge : Prog σ ε α) := by
  intro s r s' h
  cases h

/-- A change keeps the views that it keeps as a function. -/
theorem keeps_modify {f : σ → σ} (h : ∀ s, view (f s) = view s) :
    Keeps view (modify f : Prog σ ε Unit) := by
  intro s r s' hrun
  cases hrun
  exact h s

/-- A sequence keeps what both parts keep. -/
theorem Keeps.bind {m : Prog σ ε α} {f : α → Prog σ ε β} (hm : Keeps view m)
    (hf : ∀ a, Keeps view (f a)) : Keeps view (m >>= f) := by
  intro s r s' h
  rcases hrun : m s with _ | ⟨_ | a, s₁⟩
  · rw [bind_run_none hrun] at h
    cases h
  · rw [bind_run_error hrun] at h
    cases h
    exact hm s _ _ hrun
  · rw [bind_run_ok hrun] at h
    exact (hf a s₁ r s' h).trans (hm s _ _ hrun)

/-- A choice keeps what both sides keep. -/
theorem keeps_ite {c : Prop} [Decidable c] {m m' : Prog σ ε α} (hm : Keeps view m)
    (hm' : Keeps view m') : Keeps view (if c then m else m') := by
  split
  · exact hm
  · exact hm'

/-- A view is kept whether the run fails or not. -/
theorem keeps_attempt {m : Prog σ ε α} (hm : Keeps view m) : Keeps view (attempt m) := by
  intro s r s' h
  rw [attempt_run] at h
  obtain ⟨⟨q, s₁⟩, hrun, heq⟩ := Option.map_eq_some_iff.mp h
  cases heq
  exact hm s q _ hrun

/-- A loop keeps what every turn keeps. -/
theorem keeps_loop {body : β → Prog σ ε (ForInStep β)} (hbody : ∀ b, Keeps view (body b)) :
    ∀ (n : Nat) (b : β), Keeps view (loop body n b) := by
  intro n
  induction n with
  | zero => exact fun _ => keeps_diverge
  | succ n ih =>
      intro b
      rw [loop_succ]
      refine (hbody b).bind fun turn => ?_
      cases turn with
      | done b' => exact keeps_pure b'
      | yield b' => exact ih b'

end Prog

end Nucleus.Lib
