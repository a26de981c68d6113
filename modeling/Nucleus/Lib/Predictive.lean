import Mathlib.Computability.StateTransition

/-!
# `Nucleus.Lib.Predictive`: predictive machines

A predictive machine reads a list of terminals under a stack of symbols. The symbol on the top and
the next terminal, which is `none` at the end, choose what happens: the machine takes the terminal
or leaves it, and other symbols stand in the place of the top one. Where there is no choice it is
blocked. The table of an LL(1) grammar is such a machine.

* A meaning of the symbols that every choice respects is a meaning of what the machine accepts for
  them (`reads_of_runs`).
* A run looks one terminal ahead and no further: it goes the same way on every input that begins
  with what it took and goes on with the same terminal (`Runs.lookahead`). So behind a blocked run
  there is no accepted input that begins like that (`not_accepts_of_blocked`).
* `Words` gives every symbol a word that the machine accepts for it, provided that the right
  terminal follows. A stack whose words fit together is `Live`, and its words empty it
  (`Words.accepts_of_live`). When the choices keep a live stack live, or else leave one that no
  terminal can follow, what a run took is the beginning of an accepted input, if need be without its
  last terminal (`Words.Keeps.completable`).
-/

set_option autoImplicit false

namespace Nucleus.Lib

/-- What a machine chooses for the symbol on the top and the next terminal: to take the terminal or
to leave it, and the symbols that stand in the place of the top one. -/
structure Predictive (T N : Type) where
  select : N → Option T → Option (Bool × List N)

namespace Predictive

variable {T N : Type} {M : Predictive T N}

/-- The input behind a choice. -/
def advance (take : Bool) (ts : List T) : List T := if take then ts.tail else ts

/-- One step from a stack and an input. -/
def next (M : Predictive T N) : List N × List T → Option (List N × List T)
  | ([], _) => none
  | (n :: ns, ts) => (M.select n ts.head?).map fun choice => (choice.2 ++ ns, advance choice.1 ts)

/-- The machine comes from `c` to `c'`. -/
def Runs (M : Predictive T N) : List N × List T → List N × List T → Prop :=
  StateTransition.Reaches M.next

/-- There is a symbol on the top, and no choice for it. -/
def Blocked (M : Predictive T N) (c : List N × List T) : Prop :=
  ∃ n ns, c.1 = n :: ns ∧ M.select n c.2.head? = none

/-! ### Runs -/

/-- No step. -/
theorem Runs.refl (c : List N × List T) : M.Runs c c := Relation.ReflTransGen.refl

/-- Runs one after the other. -/
theorem Runs.trans {c c' c'' : List N × List T} (h : M.Runs c c') (h' : M.Runs c' c'') :
    M.Runs c c'' := Relation.ReflTransGen.trans h h'

/-- The step that a choice makes. -/
theorem next_cons {n : N} {ns ms : List N} {ts : List T} {take : Bool}
    (h : M.select n ts.head? = some (take, ms)) :
    M.next (n :: ns, ts) = some (ms ++ ns, advance take ts) := by
  rw [next, h]
  rfl

/-- A run that starts with the choice `(take, ms)`. -/
theorem Runs.choose {n : N} {ns ms : List N} {ts : List T} {take : Bool} {c : List N × List T}
    (h : M.select n ts.head? = some (take, ms)) (hrest : M.Runs (ms ++ ns, advance take ts) c) :
    M.Runs (n :: ns, ts) c := Relation.ReflTransGen.head (next_cons h) hrest

/-- A step is made by a choice. -/
theorem next_eq_some {n : N} {ns : List N} {ts : List T} {c : List N × List T}
    (h : M.next (n :: ns, ts) = some c) :
    ∃ take ms, M.select n ts.head? = some (take, ms) ∧ c = (ms ++ ns, advance take ts) := by
  obtain ⟨⟨take, ms⟩, hchoice, rfl⟩ := Option.map_eq_some_iff.mp h
  exact ⟨take, ms, hchoice, rfl⟩

/-- What stands below the stack of a run does not matter to it. -/
theorem Runs.frame {c c' : List N × List T} (h : M.Runs c c') (below : List N) :
    M.Runs (c.1 ++ below, c.2) (c'.1 ++ below, c'.2) := by
  induction h with
  | refl => exact Runs.refl _
  | @tail d e _ hstep ih =>
      refine ih.trans ?_
      obtain ⟨ns, ts⟩ := d
      rcases ns with _ | ⟨n, ns⟩
      · cases hstep
      · obtain ⟨take, ms, hchoice, rfl⟩ := next_eq_some hstep
        show M.Runs (n :: (ns ++ below), ts) ((ms ++ ns) ++ below, advance take ts)
        rw [List.append_assoc]
        exact Runs.choose hchoice (Runs.refl _)

/-- A machine that empties its stack does not come to a symbol without a choice. -/
theorem not_accepts_of_blocked_run {c c' : List N × List T} {ts : List T} (h : M.Runs c c')
    (hblocked : M.Blocked c') : ¬ M.Runs c ([], ts) := by
  intro haccepts
  obtain ⟨n, ns, hstack, hnone⟩ := hblocked
  obtain ⟨stack, rest⟩ := c'
  obtain rfl : stack = n :: ns := hstack
  have hstop : M.next (n :: ns, rest) = none := by
    rw [next, hnone]
    rfl
  -- both ends of the two runs are the last ones
  rcases StateTransition.reaches_total h haccepts with hrun | hrun
  · rcases hrun.cases_head with heq | ⟨d, hstep, -⟩
    · cases heq
    · rw [hstop] at hstep
      cases hstep
  · rcases hrun.cases_head with heq | ⟨d, hstep, -⟩
    · cases heq
    · cases hstep

/-! ### What a stack reads -/

/-- Each symbol of the stack reads what `Holds` says, one after the other. -/
def Reads (Holds : N → List T → List T → Prop) : List N → List T → List T → Prop
  | [], ts, rest => ts = rest
  | n :: ns, ts, rest => ∃ mid, Holds n ts mid ∧ Reads Holds ns mid rest

/-- What a list of goals reads is split where its parts meet. -/
theorem reads_append {Holds : N → List T → List T → Prop} {ms ns : List N} {ts rest : List T}
    (h : Reads Holds (ms ++ ns) ts rest) :
    ∃ mid, Reads Holds ms ts mid ∧ Reads Holds ns mid rest := by
  induction ms generalizing ts with
  | nil => exact ⟨ts, rfl, h⟩
  | cons m ms ih =>
      obtain ⟨mid, hm, hms⟩ := h
      obtain ⟨mid', hms, hns⟩ := ih hms
      exact ⟨mid', ⟨mid, hm, hms⟩, hns⟩

/-- A meaning of the symbols that every choice respects is the meaning of what they accept. -/
theorem reads_of_runs {Holds : N → List T → List T → Prop}
    (hchoose : ∀ n ts take ms rest, M.select n ts.head? = some (take, ms) →
      Reads Holds ms (advance take ts) rest → Holds n ts rest)
    {c : List N × List T} {rest : List T} (h : M.Runs c ([], rest)) :
    Reads Holds c.1 c.2 rest := by
  induction h using Relation.ReflTransGen.head_induction_on with
  | refl => rfl
  | @head c d hstep _ ih =>
      obtain ⟨ns, ts⟩ := c
      rcases ns with _ | ⟨n, ns⟩
      · cases hstep
      obtain ⟨take, ms, hchoice, rfl⟩ := next_eq_some hstep
      obtain ⟨mid, hms, hns⟩ := reads_append ih
      exact ⟨mid, hchoose n ts take ms mid hchoice hms, hns⟩

/-! ### One terminal ahead -/

theorem head?_append_congr (us : List T) {rest rest' : List T} (h : rest'.head? = rest.head?) :
    (us ++ rest').head? = (us ++ rest).head? := by
  rw [List.head?_append, List.head?_append, h]

/-- A run takes a beginning of the input, and goes the same way on every input that begins so and
goes on with the same terminal. -/
theorem Runs.lookahead {c c' : List N × List T} (h : M.Runs c c') :
    ∃ us, c.2 = us ++ c'.2 ∧
      ∀ rest, rest.head? = c'.2.head? → M.Runs (c.1, us ++ rest) (c'.1, rest) := by
  induction h using Relation.ReflTransGen.head_induction_on with
  | refl => exact ⟨[], rfl, fun rest _ => Runs.refl _⟩
  | @head c d hstep _ ih =>
      obtain ⟨us, hinput, hrun⟩ := ih
      obtain ⟨ns, ts⟩ := c
      rcases ns with _ | ⟨n, ns⟩
      · cases hstep
      obtain ⟨take, ms, hchoice, rfl⟩ := next_eq_some hstep
      cases take with
      | false =>
          -- the terminal stays
          obtain rfl : ts = us ++ c'.2 := hinput
          refine ⟨us, rfl, fun rest hrest => ?_⟩
          have hsame : M.select n (us ++ rest).head? = some (false, ms) := by
            rw [head?_append_congr us hrest]
            exact hchoice
          exact Runs.choose hsame (hrun rest hrest)
      | true =>
          rcases ts with _ | ⟨t, ts⟩
          · -- at the end of the input there is nothing to take
            obtain ⟨rfl, hend⟩ := List.append_eq_nil_iff.mp (show us ++ c'.2 = [] from hinput.symm)
            refine ⟨[], hend.symm, fun rest hrest => ?_⟩
            obtain rfl : rest = [] := List.head?_eq_none_iff.mp (by rw [hrest, hend]; rfl)
            exact Runs.choose hchoice (hrun [] hrest)
          · obtain rfl : ts = us ++ c'.2 := hinput
            exact ⟨t :: us, rfl, fun rest hrest => Runs.choose hchoice (hrun rest hrest)⟩

/-- No accepted input begins with what a blocked run took and the terminal that it is blocked at. -/
theorem not_accepts_of_blocked {c c' : List N × List T} (h : M.Runs c c')
    (hblocked : M.Blocked c') :
    ∃ us, c.2 = us ++ c'.2 ∧
      ∀ rest ts, rest.head? = c'.2.head? → ¬ M.Runs (c.1, us ++ rest) ([], ts) := by
  obtain ⟨us, hinput, hrun⟩ := h.lookahead
  refine ⟨us, hinput, fun rest ts hrest => not_accepts_of_blocked_run (hrun rest hrest) ?_⟩
  obtain ⟨n, ns, hstack, hnone⟩ := hblocked
  refine ⟨n, ns, hstack, ?_⟩
  show M.select n rest.head? = none
  rw [hrest]
  exact hnone

/-- A run divides behind the last terminal that it takes: it comes to that point on every input that
begins with what it took. -/
theorem Runs.divide {c c' : List N × List T} (h : M.Runs c c') :
    ∃ us ns, c.2 = us ++ c'.2 ∧ (∀ rest, M.Runs (c.1, us ++ rest) (ns, rest)) ∧
      M.Runs (ns, c'.2) c' := by
  induction h using Relation.ReflTransGen.head_induction_on with
  | refl => exact ⟨[], c'.1, rfl, fun rest => Runs.refl _, Runs.refl _⟩
  | @head c d hstep hafter ih =>
      obtain ⟨us, ns', hinput, hrun, hend⟩ := ih
      obtain ⟨ns, ts⟩ := c
      rcases ns with _ | ⟨n, ns⟩
      · cases hstep
      have hall : M.Runs (n :: ns, ts) c' := Relation.ReflTransGen.head hstep hafter
      obtain ⟨take, ms, hchoice, rfl⟩ := next_eq_some hstep
      -- a run that takes nothing divides at its start
      rcases us with _ | ⟨u, us⟩
      · cases take with
        | false =>
            obtain rfl : ts = c'.2 := hinput
            exact ⟨[], n :: ns, rfl, fun rest => Runs.refl _, hall⟩
        | true =>
            rcases ts with _ | ⟨t, ts⟩
            · have hnil : [] = c'.2 := hinput
              rw [← hnil]
              exact ⟨[], n :: ns, rfl, fun rest => Runs.refl _, hall⟩
            · obtain rfl : ts = c'.2 := hinput
              exact ⟨[t], ns', rfl, fun rest => Runs.choose hchoice (hrun rest), hend⟩
      · cases take with
        | false =>
            obtain rfl : ts = u :: us ++ c'.2 := hinput
            exact ⟨u :: us, ns', rfl, fun rest => Runs.choose hchoice (hrun rest), hend⟩
        | true =>
            rcases ts with _ | ⟨t, ts⟩
            · cases (hinput : [] = u :: us ++ c'.2)
            · obtain rfl : ts = u :: us ++ c'.2 := hinput
              exact ⟨t :: u :: us, ns', rfl, fun rest => Runs.choose hchoice (hrun rest), hend⟩

/-! ### Completions -/

/-- A word for every symbol, and the terminals that may follow it. -/
structure Words (M : Predictive T N) where
  word : N → List T
  Follows : N → Option T → Prop
  accepts : ∀ n rest, Follows n rest.head? → M.Runs ([n], word n ++ rest) ([], rest)

namespace Words

variable (W : Words M)

/-- The words of a stack. -/
def words (ns : List N) : List T := ns.flatMap W.word

/-- Behind the word of each symbol comes a terminal that may follow it. -/
def Live : List N → Prop
  | [] => True
  | n :: ns => W.Follows n (W.words ns).head? ∧ Live ns

/-- A live stack is emptied by its words. -/
theorem accepts_of_live {ns : List N} (h : W.Live ns) : M.Runs (ns, W.words ns) ([], []) := by
  induction ns with
  | nil => exact Runs.refl _
  | cons n ns ih =>
      have hword := (W.accepts n (W.words ns) h.1).frame ns
      exact Runs.trans hword (ih h.2)

/-- Every choice on a live stack leaves a live stack, or takes one of the terminals of `Last` and
leaves a stack that is late: one that has no choice for any terminal. -/
structure Keeps (Last : T → Prop) (Late : List N → Prop) : Prop where
  choose : ∀ n ns h take ms, W.Live (n :: ns) → M.select n h = some (take, ms) →
    W.Live (ms ++ ns) ∨ take = true ∧ (∃ t, h = some t ∧ Last t) ∧ Late (ms ++ ns)
  blocked : ∀ ns ts, Late ns → M.Blocked (ns, ts)

section
variable {W} {Last : T → Prop} {Late : List N → Prop}

/-- From a live stack a run comes to a live stack, or to one that is late. In that case the stack
was live before the last terminal. -/
theorem Keeps.live_of_runs (hkeeps : W.Keeps Last Late) {c c' : List N × List T}
    (hlive : W.Live c.1) (h : M.Runs c c') :
    W.Live c'.1 ∨ Late c'.1 ∧ ∃ ns t, M.Runs c (ns, t :: c'.2) ∧ W.Live ns ∧ Last t := by
  induction h with
  | refl => exact Or.inl hlive
  | @tail d e hrun hstep ih =>
      obtain ⟨ns, ts⟩ := d
      rcases ns with _ | ⟨n, ns⟩
      · cases hstep
      obtain ⟨take, ms, hchoice, rfl⟩ := next_eq_some hstep
      rcases ih with hns | ⟨hns, -⟩
      · rcases hkeeps.choose n ns ts.head? take ms hns hchoice with hms | ⟨rfl, hterminal, hms⟩
        · exact Or.inl hms
        · obtain ⟨t, hhead, hlast⟩ := hterminal
          obtain ⟨ts, rfl⟩ := List.head?_eq_some_iff.mp hhead
          exact Or.inr ⟨hms, n :: ns, t, hrun, hns, hlast⟩
      · -- a stack that comes late is blocked, so it takes no step
        obtain ⟨m, ms', hstack, hnone⟩ := hkeeps.blocked _ ts hns
        cases hstack
        rw [hchoice] at hnone
        cases hnone

/-- What a run to a live stack took is the beginning of an accepted input. -/
theorem Keeps.completes (hkeeps : W.Keeps Last Late) {c c' : List N × List T} (hlive : W.Live c.1)
    (h : M.Runs c c') (hlive' : W.Live c'.1) :
    ∃ us ws, c.2 = us ++ c'.2 ∧ M.Runs (c.1, us ++ ws) ([], []) := by
  obtain ⟨us, ns, hinput, hrun, hend⟩ := h.divide
  refine ⟨us, W.words ns, hinput, (hrun (W.words ns)).trans (W.accepts_of_live ?_)⟩
  -- the run is at `ns` on its own input, too
  have hhere : M.Runs c (ns, c'.2) := by
    have hrest := hrun c'.2
    rw [← hinput] at hrest
    exact hrest
  rcases hkeeps.live_of_runs hlive hhere with hns | ⟨hns, -⟩
  · exact hns
  · rcases hend.cases_head with heq | ⟨d, hstep, -⟩
    · rw [← heq] at hlive'
      exact hlive'
    · obtain ⟨n, ms, hstack, hnone⟩ := hkeeps.blocked ns c'.2 hns
      cases hstack
      obtain ⟨take, ks, hchoice, -⟩ := next_eq_some hstep
      rw [hchoice] at hnone
      cases hnone

/-- What a run took is the beginning of an accepted input, or its last terminal is one of `Last` and
what it took before is the beginning of an accepted input. -/
theorem Keeps.completable (hkeeps : W.Keeps Last Late) {c c' : List N × List T} (hlive : W.Live c.1)
    (h : M.Runs c c') :
    ∃ us, c.2 = us ++ c'.2 ∧ ((∃ ws, M.Runs (c.1, us ++ ws) ([], [])) ∨
      ∃ vs t ws, us = vs ++ [t] ∧ Last t ∧ M.Runs (c.1, vs ++ ws) ([], [])) := by
  rcases hkeeps.live_of_runs hlive h with hlive' | ⟨-, ns, t, hrun, hns, hlast⟩
  · obtain ⟨us, ws, hinput, haccepts⟩ := hkeeps.completes hlive h hlive'
    exact ⟨us, hinput, Or.inl ⟨ws, haccepts⟩⟩
  · obtain ⟨vs, ws, hinput, haccepts⟩ := hkeeps.completes hlive hrun hns
    refine ⟨vs ++ [t], ?_, Or.inr ⟨vs, t, ws, rfl, hlast, haccepts⟩⟩
    rw [hinput, List.append_assoc]
    rfl

end

end Words

end Predictive

end Nucleus.Lib
