import Mathlib.Data.List.Basic
import Mathlib.Data.Option.Basic

/-!
# `Nucleus.Lib.Reduce`: operators on a stack

A binary operator that may have no value takes the two topmost words of a stack and puts its result
in their place. `reduce` applies a list of operators one after the other. On a stack `a :: ws` this
is a left fold from `a` over as many words of `ws` as there are operators, and what stands below
them stays (`reduce_eq_some_iff`).
-/

set_option autoImplicit false

namespace Nucleus.Lib

variable {α : Type}

/-- The operators on the stack, each on the two topmost words. -/
def reduce : List (α → α → Option α) → List α → Option (List α)
  | [], ws => some ws
  | op :: ops, a :: b :: ws => (op a b).bind fun r => reduce ops (r :: ws)
  | _ :: _, _ => none

/-- The first operator on the two topmost words. -/
theorem reduce_cons (op : α → α → Option α) (ops : List (α → α → Option α)) (a b : α)
    (ws : List α) :
    reduce (op :: ops) (a :: b :: ws) = (op a b).bind fun r => reduce ops (r :: ws) := rfl

/-- An operator needs two words. -/
theorem reduce_short {ops : List (α → α → Option α)} {ws : List α} (hops : ops ≠ [])
    (h : ws.length < 2) : reduce ops ws = none := by
  cases ops with
  | nil => exact absurd rfl hops
  | cons op ops =>
      match ws, h with
      | [], _ => rfl
      | [_], _ => rfl

/-- The operators of two lists, one list after the other. -/
theorem reduce_append_ops (ops ops' : List (α → α → Option α)) (ws : List α) :
    reduce (ops ++ ops') ws = (reduce ops ws).bind (reduce ops') := by
  induction ops generalizing ws with
  | nil => rfl
  | cons op ops ih =>
      match ws with
      | [] => rfl
      | [_] => rfl
      | a :: b :: ws =>
          rw [List.cons_append, reduce_cons, reduce_cons, Option.bind_assoc]
          exact congrArg _ (funext fun r => ih (r :: ws))

/-- One step of the fold: the operator on the result so far and the next word. -/
def foldStep (acc : α) (p : (α → α → Option α) × α) : Option α := p.1 acc p.2

/-- A reduction is a left fold of the topmost word over the words below it. -/
theorem reduce_cons_eq_fold (ops : List (α → α → Option α)) (a : α) (ws : List α) :
    reduce ops (a :: ws) =
      if ops.length ≤ ws.length then
        ((ops.zip ws).foldlM foldStep a).map (· :: ws.drop ops.length)
      else none := by
  induction ops generalizing a ws with
  | nil => rfl
  | cons op ops ih =>
      match ws with
      | [] => rfl
      | b :: ws =>
          rw [reduce_cons, List.zip_cons_cons, List.foldlM_cons, List.length_cons, List.length_cons,
            List.drop_succ_cons]
          -- the operator has no value, or the fold goes on from its result
          show _ = if _ then ((op a b).bind _).map _ else none
          cases op a b with
          | none => simp
          | some r =>
              rw [Option.bind_some, Option.bind_some, ih]
              simp only [Nat.add_le_add_iff_right]

/-- What the operators make of a stack: nothing without operators, and else the left fold of the
topmost word over the words below it. -/
inductive Folded : List (α → α → Option α) → List α → List α → Prop where
  | done (ws : List α) : Folded [] ws ws
  | fold {ops : List (α → α → Option α)} {a r : α} {ws : List α} :
      ops.length ≤ ws.length → (ops.zip ws).foldlM foldStep a = some r →
      Folded ops (a :: ws) (r :: ws.drop ops.length)

/-- A reduction that succeeds is a fold, and the other way round. -/
theorem reduce_eq_some_iff {ops : List (α → α → Option α)} {ws ws' : List α} :
    reduce ops ws = some ws' ↔ Folded ops ws ws' := by
  constructor
  · intro h
    cases ws with
    | nil =>
        cases ops with
        | nil =>
            cases h
            exact .done []
        | cons op ops =>
            -- an operator needs two words
            have hshort : ([] : List α).length < 2 := Nat.two_pos
            rw [reduce_short (List.cons_ne_nil _ _) hshort] at h
            cases h
    | cons a ws =>
        rw [reduce_cons_eq_fold] at h
        split at h
        · rename_i hle
          obtain ⟨r, hr, rfl⟩ := Option.map_eq_some_iff.mp h
          exact .fold hle hr
        · cases h
  · intro h
    cases h with
    | done => rfl
    | fold hle hr => rw [reduce_cons_eq_fold, if_pos hle, hr, Option.map_some]

end Nucleus.Lib
