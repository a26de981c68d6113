import Nucleus.Lib.Frame

/-!
# `Nucleus.Lib.Visit`: acting on the elements of a list in turn

`visitAll act l` runs `act` on the elements of `l`, in order, and stops at the first error.
`visitAll_append` cuts such a run in two, and `visitAll_cases` is its rule: with an invariant on
the elements that were visited, the run visits all of them or ends at the first one that fails.
-/

set_option autoImplicit false

namespace Nucleus.Lib

namespace Prog

variable {σ ε α β : Type}

/-- Run `act` on the elements of a list. -/
def visitAll (act : α → Prog σ ε Unit) : List α → Prog σ ε Unit
  | [] => pure ()
  | i :: l => do
      act i
      visitAll act l

/-! ### Runs of a sequence -/

/-- A sequence only depends on how its first part runs. -/
theorem bind_run_congr_left {m m' : Prog σ ε α} {f : α → Prog σ ε β} {s : σ} (h : m s = m' s) :
    (m >>= f) s = (m' >>= f) s := by
  rcases hm : m s with _ | ⟨_ | a, s'⟩
  · rw [bind_run_none hm, bind_run_none (h.symm.trans hm)]
  · rw [bind_run_error hm, bind_run_error (h.symm.trans hm)]
  · rw [bind_run_ok hm, bind_run_ok (h.symm.trans hm)]

/-- Its second part only matters where the first part ends. -/
theorem bind_run_congr_right {m : Prog σ ε α} {f f' : α → Prog σ ε β} {s : σ}
    (h : ∀ a s', m s = some (.ok a, s') → f a s' = f' a s') : (m >>= f) s = (m >>= f') s := by
  rcases hm : m s with _ | ⟨_ | a, s'⟩
  · rw [bind_run_none hm, bind_run_none hm]
  · rw [bind_run_error hm, bind_run_error hm]
  · rw [bind_run_ok hm, bind_run_ok hm]
    exact h a s' hm

/-! ### Visits -/

variable {act : α → Prog σ ε Unit}

@[simp] theorem visitAll_nil : visitAll act [] = pure () := rfl

/-- The first element is visited first. -/
theorem visitAll_cons (i : α) (l : List α) :
    visitAll act (i :: l) = act i >>= fun _ => visitAll act l := rfl

/-- The elements of two lists, one list after the other. -/
theorem visitAll_append (l l' : List α) (s : σ) :
    visitAll act (l ++ l') s = (visitAll act l >>= fun _ => visitAll act l') s := by
  induction l generalizing s with
  | nil => rfl
  | cons i l ih =>
      rw [List.cons_append, visitAll_cons, visitAll_cons, bind_assoc]
      exact bind_run_congr_right fun _ s' _ => ih s'

/-- What every action keeps, the whole run keeps. -/
theorem keeps_visitAll {γ : Type} {view : σ → γ} (hact : ∀ i, Keeps view (act i)) (l : List α) :
    Keeps view (visitAll act l) := by
  induction l with
  | nil => exact keeps_pure ()
  | cons i l ih => exact (hact i).bind fun _ => ih

/-- One action on `i`, with `done` behind it: it succeeds and `i` passes, or it fails and `i` does
not pass. -/
inductive Visit (Inv : List α → σ → Prop) (Fail : List α → α → ε → σ → Prop) (P : α → Prop)
    (act : α → Prog σ ε Unit) (done : List α) (i : α) (s : σ) : Prop where
  | ok {s' : σ} : act i s = some (.ok (), s') → P i → Inv (done ++ [i]) s' →
      Visit Inv Fail P act done i s
  | error {e : ε} {s' : σ} : act i s = some (.error e, s') → ¬ P i → Fail done i e s' →
      Visit Inv Fail P act done i s

/-- The run visits the whole list when all elements pass, and otherwise it ends at the first one
that does not. -/
theorem visitAll_cases {Inv : List α → σ → Prop} {Fail : List α → α → ε → σ → Prop}
    {P : α → Prop} {l : List α}
    (hstep : ∀ done, ∀ i ∈ l, ∀ s, Inv done s → Visit Inv Fail P act done i s)
    {done : List α} {s : σ} (hs : Inv done s) :
    (∃ s', visitAll act l s = some (.ok (), s') ∧ (∀ i ∈ l, P i) ∧ Inv (done ++ l) s') ∨
      ∃ pre i post e s', visitAll act l s = some (.error e, s') ∧ l = pre ++ i :: post ∧
        (∀ j ∈ pre, P j) ∧ ¬ P i ∧ Fail (done ++ pre) i e s' := by
  induction l generalizing done s with
  | nil =>
      refine Or.inl ⟨s, rfl, fun i hi => absurd hi List.not_mem_nil, ?_⟩
      rw [List.append_nil]
      exact hs
  | cons i l ih =>
      rw [visitAll_cons]
      cases hstep done i (by simp) s hs with
      | error hrun hP hfail =>
          refine Or.inr ⟨[], i, l, _, _, bind_run_error hrun, rfl, ?_, hP, ?_⟩
          · exact fun j hj => absurd hj List.not_mem_nil
          · rw [List.append_nil]
            exact hfail
      | ok hrun hP hinv =>
          rw [bind_run_ok hrun]
          -- the label was visited, and the rest starts behind it
          have hrest := ih (fun done j hj => hstep done j (List.mem_cons_of_mem _ hj)) hinv
          rcases hrest with ⟨s', hall, hPs, hinv'⟩ |
            ⟨pre, j, post, e, s', hfirst, rfl, hpre, hj, hfail⟩
          · refine Or.inl ⟨s', hall, List.forall_mem_cons.mpr ⟨hP, hPs⟩, ?_⟩
            rw [List.append_assoc] at hinv'
            exact hinv'
          · refine Or.inr ⟨i :: pre, j, post, e, s', hfirst, rfl, ?_, hj, ?_⟩
            · exact List.forall_mem_cons.mpr ⟨hP, hpre⟩
            · rw [List.append_assoc] at hfail
              exact hfail

end Prog

end Nucleus.Lib
