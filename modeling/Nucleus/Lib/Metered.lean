import Nucleus.Lib.Predictive

/-!
# `Nucleus.Lib.Metered`: predictive machines with a budget

A tariff gives every symbol of a predictive machine a price, and every choice a remark, or none. The
ledger beside the machine holds what is left of the budget and the last remark. A step pays the
price of the symbol on the top, and where the budget is too small for it there is no step.

* A paid run is a run of the machine (`PaidRuns.runs`).
* Two paid runs that cannot go on end at the same place (`PaidRuns.unique`).
-/

set_option autoImplicit false

namespace Nucleus.Lib

/-- What is left of a budget, and the last remark. -/
structure Ledger (ν : Type) where
  budget : Nat
  remark : Option ν

/-- The price of a symbol, and the remark on a choice for it at a terminal. -/
structure Tariff (T N ν : Type) where
  price : N → Nat
  remark : N → Option T → Option ν

/-- The ledger behind a choice, if the budget is enough. A new remark takes the place of the last.
-/
def Tariff.pay {T N ν : Type} (F : Tariff T N ν) (n : N) (h : Option T) (l : Ledger ν) :
    Option (Ledger ν) :=
  if F.price n ≤ l.budget then some ⟨l.budget - F.price n, (F.remark n h).or l.remark⟩ else none

namespace Predictive

variable {T N ν : Type} {M : Predictive T N} {F : Tariff T N ν}

/-- One step that is paid for. -/
def nextPaid (M : Predictive T N) (F : Tariff T N ν) :
    (List N × List T) × Ledger ν → Option ((List N × List T) × Ledger ν)
  | (([], _), _) => none
  | ((n :: ns, ts), l) =>
      (F.pay n ts.head? l).bind fun l' => (M.next (n :: ns, ts)).map fun c => (c, l')

/-- The machine comes from `c` to `c'` with its ledger. -/
def PaidRuns (M : Predictive T N) (F : Tariff T N ν) (c c' : (List N × List T) × Ledger ν) : Prop :=
  StateTransition.Reaches (M.nextPaid F) c c'

namespace PaidRuns

/-- No step costs nothing. -/
theorem refl (c : (List N × List T) × Ledger ν) : M.PaidRuns F c c := Relation.ReflTransGen.refl

/-- Runs one after the other, with the ledger handed on. -/
theorem trans {c c' c'' : (List N × List T) × Ledger ν} (h : M.PaidRuns F c c')
    (h' : M.PaidRuns F c' c'') : M.PaidRuns F c c'' := Relation.ReflTransGen.trans h h'

/-- A paid run that starts with the choice `(take, ms)`. -/
theorem choose {n : N} {ns ms : List N} {ts : List T} {take : Bool} {l l' : Ledger ν}
    {c : (List N × List T) × Ledger ν} (h : M.select n ts.head? = some (take, ms))
    (hpay : F.pay n ts.head? l = some l')
    (hrest : M.PaidRuns F ((ms ++ ns, advance take ts), l') c) :
    M.PaidRuns F ((n :: ns, ts), l) c := by
  refine Relation.ReflTransGen.head ?_ hrest
  show _ ∈ (F.pay n ts.head? l).bind fun l' => (M.next (n :: ns, ts)).map fun c => (c, l')
  rw [hpay, next_cons h]
  rfl

/-- Every step of a paid run is a step of the machine. -/
theorem runs {c c' : (List N × List T) × Ledger ν} (h : M.PaidRuns F c c') : M.Runs c.1 c'.1 := by
  induction h with
  | refl => exact Runs.refl _
  | @tail d e _ hstep ih =>
      refine ih.trans ?_
      obtain ⟨⟨ns, ts⟩, l⟩ := d
      rcases ns with _ | ⟨n, ns⟩
      · cases hstep
      obtain ⟨l', -, hnext⟩ := Option.bind_eq_some_iff.mp hstep
      obtain ⟨c, hc, rfl⟩ := Option.map_eq_some_iff.mp hnext
      exact Relation.ReflTransGen.single hc

/-- The machine is deterministic: there is one place at which a paid run ends. -/
theorem unique {c d e : (List N × List T) × Ledger ν} (hd : M.PaidRuns F c d)
    (he : M.PaidRuns F c e) (hstop : M.nextPaid F d = none) (hstop' : M.nextPaid F e = none) :
    d = e := by
  rcases StateTransition.reaches_total hd he with hrun | hrun
  · rcases hrun.cases_head with heq | ⟨x, hstep, -⟩
    · exact heq
    · rw [hstop] at hstep
      cases hstep
  · rcases hrun.cases_head with heq | ⟨x, hstep, -⟩
    · exact heq.symm
    · rw [hstop'] at hstep
      cases hstep

end PaidRuns

/-! ### Where there is no step -/

/-- The machine without goals has stopped. -/
theorem nextPaid_nil (ts : List T) (l : Ledger ν) : M.nextPaid F (([], ts), l) = none := rfl

/-- A blocked machine takes no step, whatever the budget is. -/
theorem nextPaid_of_blocked {c : List N × List T} (h : M.Blocked c) (l : Ledger ν) :
    M.nextPaid F (c, l) = none := by
  obtain ⟨n, ns, hstack, hnone⟩ := h
  obtain ⟨stack, ts⟩ := c
  obtain rfl : stack = n :: ns := hstack
  have hstop : M.next (n :: ns, ts) = none := by
    rw [next, hnone]
    rfl
  rw [nextPaid, hstop]
  cases F.pay n ts.head? l <;> rfl

/-- Nor does a machine whose budget is too small. -/
theorem nextPaid_of_lt {n : N} {ns : List N} {ts : List T} {l : Ledger ν}
    (h : l.budget < F.price n) : M.nextPaid F ((n :: ns, ts), l) = none := by
  rw [nextPaid, Tariff.pay, if_neg (Nat.not_le.mpr h)]
  rfl

end Predictive

end Nucleus.Lib
