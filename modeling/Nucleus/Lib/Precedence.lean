import Mathlib.Data.List.Basic
import Mathlib.Order.Basic

/-!
# `Nucleus.Lib.Precedence`: grouping by precedence

A sequence of operators with their right operands (`List (Op × α)`) behind a first operand is
grouped from the top: at an operator of the least precedence, the last one if it is left
associative and the first one otherwise (`splitLeast`), and then each side in the same way
(`group`).

Precedence climbing reads such a sequence from the left. What makes it agree with the grouping
is `group_cons_append`: an operator can take the operators that bind tighter behind it as its
right operand first, and the rest is grouped with the result as its first operand.
-/

set_option autoImplicit false

namespace Nucleus.Lib

variable {Op α : Type} (prec : Op → Nat) (left : Op → Bool) (node : Op → α → α → α)

/-! ### The grouping -/

/-- The operator at which a sequence is split, with what stands before and behind it: among the
operators of the least precedence the last one, if they are left associative, and the first
one otherwise. -/
def splitLeast : List (Op × α) → Option (List (Op × α) × (Op × α) × List (Op × α))
  | [] => none
  | x :: xs =>
      match splitLeast xs with
      | none => some ([], x, [])
      | some (l, y, r) =>
          if prec y.1 < prec x.1 ∨ prec y.1 = prec x.1 ∧ left y.1 then some (x :: l, y, r)
          else some ([], x, xs)

/-- The tree of a sequence, with `n` levels of recursion. -/
def groupFuel : Nat → α → List (Op × α) → α
  | 0, a, _ => a
  | n + 1, a, ops =>
      match splitLeast prec left ops with
      | none => a
      | some (l, y, r) => node y.1 (groupFuel n a l) (groupFuel n y.2 r)

/-- The tree of a sequence behind the operand `a`. -/
def group (a : α) (ops : List (Op × α)) : α := groupFuel prec left node ops.length a ops

/-- The precedence that the operators of a right operand have at least. -/
def nextPrec (o : Op) : Nat := if left o then prec o + 1 else prec o

variable {prec left node}

/-! ### The split -/

/-- There is a place to split at as long as there is an operator. -/
theorem splitLeast_eq_none {ops : List (Op × α)} : splitLeast prec left ops = none ↔ ops = [] := by
  cases ops with
  | nil => simp [splitLeast]
  | cons x xs =>
      simp only [splitLeast]
      split
      · simp
      · split <;> simp

/-- The split takes a sequence apart. -/
theorem eq_append_of_splitLeast {ops l r : List (Op × α)} {y : Op × α}
    (h : splitLeast prec left ops = some (l, y, r)) : ops = l ++ y :: r := by
  induction ops generalizing l y r with
  | nil => cases h
  | cons x xs ih =>
      simp only [splitLeast] at h
      split at h
      · rename_i hnone
        rw [splitLeast_eq_none.mp hnone]
        cases h
        rfl
      · rename_i l' y' r' hsome
        split at h
        · cases h
          rw [List.cons_append, ← ih hsome]
        · cases h
          rfl

/-- The operator of a split has the least precedence. If operators of one precedence have one
associativity, it is the last one of its precedence when it is left associative and the first
one otherwise. -/
theorem splitLeast_least (hassoc : ∀ o o', prec o = prec o' → left o = left o')
    {ops l r : List (Op × α)} {y : Op × α} (h : splitLeast prec left ops = some (l, y, r)) :
    (∀ z ∈ ops, prec y.1 ≤ prec z.1) ∧ (left y.1 → ∀ z ∈ r, prec y.1 < prec z.1) ∧
      (¬ left y.1 → ∀ z ∈ l, prec y.1 < prec z.1) := by
  induction ops generalizing l y r with
  | nil => cases h
  | cons x xs ih =>
      simp only [splitLeast] at h
      split at h
      · rename_i hnone
        rw [splitLeast_eq_none.mp hnone]
        cases h
        simp
      · rename_i l' y' r' hsome
        obtain ⟨hle, hlast, hfirst⟩ := ih hsome
        have hxs := eq_append_of_splitLeast hsome
        split at h
        · -- a later operator binds less, so the first one is not the one to split at
          rename_i hlt
          cases h
          refine ⟨fun z hz => ?_, hlast, fun hright z hz => ?_⟩
          · rcases List.mem_cons.mp hz with rfl | hz
            · omega
            · exact hle z hz
          · rcases List.mem_cons.mp hz with rfl | hz
            · exact hlt.resolve_right fun hand => hright hand.2
            · exact hfirst hright z hz
        · rename_i hge
          cases h
          have hxy : prec x.1 ≤ prec y'.1 := by omega
          refine ⟨fun z hz => ?_, fun hleft z hz => ?_, by simp⟩
          · rcases List.mem_cons.mp hz with rfl | hz
            · exact Nat.le_refl _
            · exact Nat.le_trans hxy (hle z hz)
          · -- an equal precedence would have made the later operator the one to split at
            refine Nat.lt_of_lt_of_le
              (Nat.lt_of_le_of_ne hxy fun heq => hge (Or.inr ⟨heq.symm, ?_⟩)) (hle z hz)
            rw [← hassoc x.1 y'.1 heq]
            exact hleft

/-- Operators that bind tighter may stand in front: the place to split at is the same. -/
theorem splitLeast_append {A B l r : List (Op × α)} {y : Op × α}
    (h : splitLeast prec left B = some (l, y, r))
    (hA : ∀ x ∈ A, prec y.1 < prec x.1 ∨ prec y.1 = prec x.1 ∧ left y.1) :
    splitLeast prec left (A ++ B) = some (A ++ l, y, r) := by
  induction A with
  | nil => exact h
  | cons x A ih =>
      rw [List.cons_append, splitLeast, ih fun z hz => hA z (List.mem_cons_of_mem _ hz)]
      exact if_pos (hA x (by simp))

/-! ### The tree -/

/-- Fuel for every operator is enough, and more changes nothing. -/
theorem groupFuel_congr (n n' : Nat) {a : α} {ops : List (Op × α)} (h : ops.length ≤ n)
    (h' : ops.length ≤ n') :
    groupFuel prec left node n a ops = groupFuel prec left node n' a ops := by
  induction n generalizing n' a ops with
  | zero =>
      obtain rfl : ops = [] := List.eq_nil_of_length_eq_zero (by omega)
      cases n' <;> rfl
  | succ n ih =>
      cases n' with
      | zero =>
          obtain rfl : ops = [] := List.eq_nil_of_length_eq_zero (by omega)
          rfl
      | succ n' =>
          simp only [groupFuel]
          split
          · rfl
          · rename_i l y r hsplit
            -- both sides of the split are shorter
            have hlen := congrArg List.length (eq_append_of_splitLeast hsplit)
            rw [List.length_append, List.length_cons] at hlen
            rw [@ih n' a l (by omega) (by omega), @ih n' y.2 r (by omega) (by omega)]

/-- An operand without operators is the group. -/
@[simp] theorem group_nil (a : α) : group prec left node a [] = a := rfl

/-- The tree of a sequence is made of the trees of the sides of its split. -/
theorem group_of_splitLeast {a : α} {ops l r : List (Op × α)} {y : Op × α}
    (h : splitLeast prec left ops = some (l, y, r)) :
    group prec left node a ops =
      node y.1 (group prec left node a l) (group prec left node y.2 r) := by
  have hlen := congrArg List.length (eq_append_of_splitLeast h)
  rw [List.length_append, List.length_cons] at hlen
  unfold group
  rw [groupFuel_congr _ (l.length + r.length + 1) (Nat.le_refl _) (by omega), groupFuel, h]
  show node y.1 (groupFuel prec left node (l.length + r.length) a l)
    (groupFuel prec left node (l.length + r.length) y.2 r) = _
  rw [groupFuel_congr _ l.length (by omega) (Nat.le_refl _),
    groupFuel_congr _ r.length (by omega) (Nat.le_refl _)]

/-- An operator takes the operators behind it that bind tighter as its right operand. -/
theorem group_cons_of_le (hassoc : ∀ o o', prec o = prec o' → left o = left o') {a : α}
    {x : Op × α} {A : List (Op × α)} (hA : ∀ z ∈ A, nextPrec prec left x.1 ≤ prec z.1) :
    group prec left node a (x :: A) = node x.1 a (group prec left node x.2 A) := by
  have hsplit : splitLeast prec left (x :: A) = some ([], x, A) := by
    rw [splitLeast]
    cases hA' : splitLeast prec left A with
    | none => rw [splitLeast_eq_none.mp hA']
    | some s =>
        obtain ⟨l, y, r⟩ := s
        have hmem : y ∈ A := by rw [eq_append_of_splitLeast hA']; simp
        have hy := hA y hmem
        refine if_neg ?_
        unfold nextPrec at hy
        rintro (hlt | ⟨heq, hleft⟩)
        · split at hy <;> omega
        · rw [← hassoc _ _ heq, hleft] at hy
          simp only [if_true] at hy
          omega
  exact group_of_splitLeast hsplit

/-- If an operator that binds less tight follows behind `A`, the operator `x` and its right
operand `A` become the first operand of the rest. -/
theorem group_cons_append (hassoc : ∀ o o', prec o = prec o' → left o = left o') {a : α}
    {x : Op × α} {A : List (Op × α)} (hA : ∀ z ∈ A, nextPrec prec left x.1 ≤ prec z.1) :
    ∀ (n : Nat) {B : List (Op × α)}, B.length ≤ n →
      (∀ z ∈ B.head?, prec z.1 < nextPrec prec left x.1) →
      group prec left node a (x :: A ++ B) =
        group prec left node (node x.1 a (group prec left node x.2 A)) B := by
  intro n
  induction n with
  | zero =>
      intro B hlen _
      obtain rfl : B = [] := List.eq_nil_of_length_eq_zero (by omega)
      rw [List.append_nil, group_cons_of_le hassoc hA]
      rfl
  | succ n ih =>
      intro B hlen hB
      cases hsplit : splitLeast prec left B with
      | none =>
          obtain rfl := splitLeast_eq_none.mp hsplit
          rw [List.append_nil, group_cons_of_le hassoc hA]
          rfl
      | some s =>
          obtain ⟨l, y, r⟩ := s
          have hBeq := eq_append_of_splitLeast hsplit
          -- the split of the whole is that of `B`, whose operator is at most its first one
          have hy : prec y.1 < nextPrec prec left x.1 := by
            obtain ⟨hle, -, -⟩ := splitLeast_least hassoc hsplit
            cases B with
            | nil => simp at hBeq
            | cons z B => exact Nat.lt_of_le_of_lt (hle z (by simp)) (hB z rfl)
          have hwhole : splitLeast prec left (x :: A ++ B) = some (x :: A ++ l, y, r) := by
            refine splitLeast_append hsplit fun z hz => ?_
            rcases List.mem_cons.mp hz with rfl | hz
            · unfold nextPrec at hy
              split at hy
              · rename_i hleft
                rcases Nat.lt_or_eq_of_le (Nat.lt_succ_iff.mp hy) with hlt | heq
                · exact Or.inl hlt
                · exact Or.inr ⟨heq, by rw [hassoc _ _ heq]; exact hleft⟩
              · exact Or.inl hy
            · exact Or.inl (Nat.lt_of_lt_of_le hy (hA z hz))
          have hhead : ∀ z ∈ l.head?, prec z.1 < nextPrec prec left x.1 := by
            intro z hz
            cases l with
            | nil => cases hz
            | cons w l =>
                refine hB z ?_
                rw [hBeq]
                exact hz
          have hl : l.length ≤ n := by
            rw [hBeq, List.length_append, List.length_cons] at hlen
            omega
          rw [group_of_splitLeast hwhole, group_of_splitLeast hsplit, ih hl hhead]

end Nucleus.Lib
