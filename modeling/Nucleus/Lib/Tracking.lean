import Nucleus.Lib.Prog
import Mathlib.Logic.Relation

/-!
# `Nucleus.Lib.Tracking`: a program in step with a machine

`Tracks R F S m s c Q` says that the program `m`, run from the state `s`, keeps in step with a
machine in the configuration `c`: the machine comes by its steps to a configuration that `Q` relates
to the result and the state when the run returns, that `F` relates to the error and the state when
it stops with an error, and that is in `S` when the run does not end.

There is one rule for each combinator of programs, and one for a step that the machine takes by
itself (`Tracks.step`).
-/

set_option autoImplicit false

namespace Nucleus.Lib.Prog

open Relation (ReflTransGen)

variable {σ ε α β γ : Type} {R : γ → γ → Prop} {F : ε → σ → γ → Prop} {S : γ → Prop}

/-- The run of `m` from `s` and a machine in the configuration `c` keep in step, up to `Q`. -/
structure Tracks (R : γ → γ → Prop) (F : ε → σ → γ → Prop) (S : γ → Prop) (m : Prog σ ε α)
    (s : σ) (c : γ) (Q : α → σ → γ → Prop) : Prop where
  ok : ∀ a s', m s = some (.ok a, s') → ∃ c', ReflTransGen R c c' ∧ Q a s' c'
  error : ∀ e s', m s = some (.error e, s') → ∃ c', ReflTransGen R c c' ∧ F e s' c'
  never : m s = none → ∃ c', ReflTransGen R c c' ∧ S c'

namespace Tracks

variable {m : Prog σ ε α} {f : α → Prog σ ε β} {s : σ} {c : γ}

/-- The postcondition may be weakened. -/
theorem mono {Q Q' : α → σ → γ → Prop} (h : Tracks R F S m s c Q)
    (hQ : ∀ a s' c', Q a s' c' → Q' a s' c') : Tracks R F S m s c Q' := by
  refine ⟨fun a s' hm => ?_, h.error, h.never⟩
  obtain ⟨c', hrun, hq⟩ := h.ok a s' hm
  exact ⟨c', hrun, hQ a s' c' hq⟩

/-- The machine goes ahead by itself. -/
theorem step {Q : α → σ → γ → Prop} {c' : γ} (hrun : ReflTransGen R c c')
    (h : Tracks R F S m s c' Q) : Tracks R F S m s c Q := by
  refine ⟨fun a s' hm => ?_, fun e s' hm => ?_, fun hm => ?_⟩
  · obtain ⟨d, hd, hq⟩ := h.ok a s' hm
    exact ⟨d, hrun.trans hd, hq⟩
  · obtain ⟨d, hd, hf⟩ := h.error e s' hm
    exact ⟨d, hrun.trans hd, hf⟩
  · obtain ⟨d, hd, hs⟩ := h.never hm
    exact ⟨d, hrun.trans hd, hs⟩

/-- A sequence, from its first part: its postcondition is about the rest. -/
theorem bind {Q : β → σ → γ → Prop}
    (h : Tracks R F S m s c fun a s' c' => Tracks R F S (f a) s' c' Q) :
    Tracks R F S (m >>= f) s c Q := by
  refine ⟨fun b s' hmf => ?_, fun e s' hmf => ?_, fun hmf => ?_⟩
  · obtain ⟨a, s₁, hm, hf⟩ := bind_eq_ok.mp hmf
    obtain ⟨c₁, hrun, hrest⟩ := h.ok a s₁ hm
    obtain ⟨c', hrun', hq⟩ := hrest.ok b s' hf
    exact ⟨c', hrun.trans hrun', hq⟩
  · -- the error is that of the first part, or of the second one behind it
    rcases hm : m s with _ | ⟨e' | a, s₁⟩
    · rw [bind_run_none hm] at hmf
      cases hmf
    · rw [bind_run_error hm] at hmf
      cases hmf
      exact h.error e s' hm
    · rw [bind_run_ok hm] at hmf
      obtain ⟨c₁, hrun, hrest⟩ := h.ok a s₁ hm
      obtain ⟨c', hrun', hf⟩ := hrest.error e s' hmf
      exact ⟨c', hrun.trans hrun', hf⟩
  · rcases bind_eq_none.mp hmf with hm | ⟨a, s₁, hm, hf⟩
    · exact h.never hm
    · obtain ⟨c₁, hrun, hrest⟩ := h.ok a s₁ hm
      obtain ⟨c', hrun', hs⟩ := hrest.never hf
      exact ⟨c', hrun.trans hrun', hs⟩

/-- The machine stands where the program gives a result. -/
theorem of_ok {Q : α → σ → γ → Prop} {a : α} {s' : σ} (hm : m s = some (.ok a, s'))
    (h : Q a s' c) : Tracks R F S m s c Q := by
  refine ⟨fun b s'' hb => ?_, fun e s'' he => ?_, fun hn => ?_⟩
  · rw [hm] at hb
    cases hb
    exact ⟨c, .refl, h⟩
  · rw [hm] at he
    cases he
  · rw [hm] at hn
    cases hn

/-- The machine stands where the program stops. -/
theorem of_error {Q : α → σ → γ → Prop} {e : ε} {s' : σ} (hm : m s = some (.error e, s'))
    (h : F e s' c) : Tracks R F S m s c Q := by
  refine ⟨fun b s'' hb => ?_, fun e' s'' he => ?_, fun hn => ?_⟩
  · rw [hm] at hb
    cases hb
  · rw [hm] at he
    cases he
    exact ⟨c, .refl, h⟩
  · rw [hm] at hn
    cases hn

/-- The machine stands where the program does not end. -/
theorem of_none {Q : α → σ → γ → Prop} (hm : m s = none) (h : S c) : Tracks R F S m s c Q := by
  refine ⟨fun b s'' hb => ?_, fun e' s'' he => ?_, fun _ => ⟨c, .refl, h⟩⟩
  · rw [hm] at hb
    cases hb
  · rw [hm] at he
    cases he

/-- Returning a value takes no step. -/
theorem pure {Q : α → σ → γ → Prop} {a : α} (h : Q a s c) :
    Tracks R F S (pure a : Prog σ ε α) s c Q := of_ok rfl h

/-- An error where the machine is where it should be. -/
theorem fail {Q : α → σ → γ → Prop} {e : ε} (h : F e s c) :
    Tracks R F S (fail e : Prog σ ε α) s c Q := of_error rfl h

/-- Reading the state takes no step. -/
theorem gets {Q : α → σ → γ → Prop} {g : σ → α} (h : Q (g s) s c) :
    Tracks R F S (gets g : Prog σ ε α) s c Q := of_ok rfl h

/-- Changing the state takes no step. -/
theorem modify {Q : Unit → σ → γ → Prop} {g : σ → σ} (h : Q () (g s) c) :
    Tracks R F S (modify g : Prog σ ε Unit) s c Q := of_ok rfl h

/-- A function of the value. -/
theorem map {g : α → β} {Q : β → σ → γ → Prop}
    (h : Tracks R F S m s c fun a s' c' => Q (g a) s' c') : Tracks R F S (g <$> m) s c Q :=
  bind (h.mono fun _ _ _ hQ => pure hQ)

/-- A loop that is entered: the turn, and behind it the end or the rest of the loop. -/
theorem loop_succ {body : β → Prog σ ε (ForInStep β)} {n : Nat} {b : β} {Q : β → σ → γ → Prop}
    (h : Tracks R F S (body b) s c fun r s' c' =>
      match r with
      | .done b' => Q b' s' c'
      | .yield b' => Tracks R F S (loop body n b') s' c' Q) :
    Tracks R F S (loop body (n + 1) b) s c Q := by
  refine bind (h.mono fun r s' c' hr => ?_)
  cases r with
  | done b' => exact pure hr
  | yield b' => exact hr

end Tracks

end Nucleus.Lib.Prog
