import Nucleus.Proofs.Fuel
import Nucleus.Proofs.InStep

/-!
# `Nucleus.Proofs.Ending`: how a parse ends

The machine of the table comes to one place at which it has no step (`PaidRuns.unique`), and this
place says how the parse ends (`ParseEnds`): the parser succeeds where no goal is left, it never
returns from a standstill, and it stops with an error elsewhere. So the results of the lexer and the
free nodes decide.
-/

set_option autoImplicit false

namespace Nucleus.Proofs

open Nucleus.Lib
open Nucleus.Lib.Prog
open Nucleus.Lang
open Nucleus.Spec
open Nucleus.Lib.Predictive (Blocked PaidRuns nextPaid_nil nextPaid_of_blocked nextPaid_of_lt)

variable {L : Type} [TokenSource L] [LawfulTokenSource L]

/-! ### Places without a step -/

/-- A machine without goals has ended. -/
theorem not_blocked_nil {rs : List LexResult} : ¬ parserTable.Blocked ([], rs) := by
  rintro ⟨g, gs, hgs, -⟩
  cases hgs

/-- A machine without goals does not stand still. -/
theorem not_standstill_nil {rs : List LexResult} : ¬ Standstill ([], rs) := by
  rintro (⟨hblocked, -⟩ | ⟨gs, t, hgs, -⟩)
  · exact not_blocked_nil hblocked
  · cases hgs

/-- No statement begins with an idle token. -/
theorem blocked_of_idle {gs : List Goal} {rs : List LexResult} {t : TokenType}
    (ht : lookahead rs = some t) (hidle : t ∈ idleTokens) :
    parserTable.Blocked (.stmt :: gs, rs) := by
  obtain ⟨token, hahead, rfl⟩ := exists_ahead ht
  refine blocked_of_table rfl hahead ?_
  simp only [idleTokens, List.mem_cons, List.not_mem_nil, or_false] at hidle
  show stmtTable token = none
  unfold stmtTable
  rcases hidle with htype | htype | htype | htype <;> rw [htype]

/-- At a standstill no step is possible. -/
theorem blocked_of_standstill {c : Config} (h : Standstill c) : parserTable.Blocked c := by
  rcases h with ⟨hblocked, -⟩ | ⟨gs, t, hgs, ht, hidle⟩
  · exact hblocked
  · obtain ⟨stack, rs⟩ := c
    obtain rfl : stack = .stmt :: gs := hgs
    exact blocked_of_idle ht hidle

omit [TokenSource L] [LawfulTokenSource L] in
/-- Where the parser stops the machine has no step. -/
theorem StopsAt.next_eq_none {start : Span} {e : Error} {p : Parser L} {d : Desk}
    (h : StopsAt start e p d) : parserTable.nextPaid parserTariff d = none := by
  cases h with
  | node => exact nextPaid_of_lt Nat.zero_lt_one
  | blocked hblocked => exact nextPaid_of_blocked hblocked _

omit [TokenSource L] [LawfulTokenSource L] in
/-- Where the parser stops there is no standstill. -/
theorem StopsAt.not_standstill {start : Span} {e : Error} {p : Parser L} {d : Desk}
    (h : StopsAt start e p d) : ¬ Standstill d.1 := by
  cases h with
  | @node gs rs =>
      -- a node can always be chosen
      intro hstand
      obtain ⟨g, gs', hgs, hnone⟩ := blocked_of_standstill hstand
      cases hgs
      cases hnone
  | blocked _ hgoes => exact hgoes

omit [TokenSource L] [LawfulTokenSource L] in
/-- A program that keeps in step with a machine whose goals are all read returns a result. -/
theorem InStep.exists_ok {α : Type} {start : Span} {m : ParserM L α} {p : Parser L} {d : Desk}
    {rs : List LexResult} {l : Ledger Span} {Q : α → Parser L → Desk → Prop}
    (h : InStep start m p d Q) (hruns : parserTable.PaidRuns parserTariff d (([], rs), l)) :
    ∃ a p', m p = some (.ok a, p') := by
  have hstop : parserTable.nextPaid parserTariff (([], rs), l) = none := nextPaid_nil rs l
  rcases hrun : m p with _ | ⟨e | a, p'⟩
  · obtain ⟨⟨c, l'⟩, hcomes, hstand⟩ := h.never hrun
    cases hruns.unique hcomes hstop (nextPaid_of_blocked (blocked_of_standstill hstand) l')
    exact absurd hstand not_standstill_nil
  · obtain ⟨d', hcomes, hstops⟩ := h.error e p' hrun
    cases hruns.unique hcomes hstop hstops.next_eq_none
    cases hstops with
    | blocked hblocked => exact absurd hblocked not_blocked_nil
  · exact ⟨a, p', rfl⟩

/-! ### The end of a parse -/

/-- How the parser that starts at `p` ends, when the machine has no step at the desk. -/
inductive ParseEnds (p : Parser L) : Desk → Prop where
  | ok {fuel : Nat} {p' : Parser L} {l : Ledger Span} :
      parse fuel p = some (.ok (), p') → ParseEnds p (([], []), l)
  | error {fuel : Nat} {e : Error} {p' : Parser L} {d : Desk} :
      parse fuel p = some (.error e, p') → StopsAt p.error.span e p' d → ParseEnds p d
  | never {c : Config} {l : Ledger Span} :
      (∀ fuel, parse fuel p = none) → Standstill c → ParseEnds p (c, l)

section
variable {p : Parser L} {rs : List LexResult} {a : Ast}

/-- With enough fuel the parser ends where the machine has no step. -/
theorem exists_ends_of_lt (h : At p rs a) (hheader : ∀ t, lookahead rs = some t → t ∉ headerTokens)
    {fuel : Nat} (hfuel : rs.length < fuel) :
    ∃ c l, Comes rs a.free c l ∧ parserTable.nextPaid parserTariff (c, l) = none ∧
      ((parse fuel p = none ∧ Standstill c) ∨ parse fuel p ≠ none ∧ ParseEnds p (c, l)) := by
  have hfaces : Faces p.error.span p rs ⟨a.free, none⟩ := ⟨h.reads, by rw [h.ast], rfl⟩
  have hstep := parse_inStep hfaces hfuel hheader
  rcases hrun : parse fuel p with _ | ⟨e | ⟨⟩, p'⟩
  · obtain ⟨⟨c, l⟩, hcomes, hstand⟩ := hstep.never hrun
    exact ⟨c, l, hcomes, nextPaid_of_blocked (blocked_of_standstill hstand) l, Or.inl ⟨rfl, hstand⟩⟩
  · obtain ⟨⟨c, l⟩, hcomes, hstops⟩ := hstep.error e p' hrun
    exact ⟨c, l, hcomes, hstops.next_eq_none, Or.inr ⟨nofun, .error hrun hstops⟩⟩
  · obtain ⟨⟨c, l⟩, hcomes, hc⟩ := hstep.ok () p' hrun
    obtain rfl : c = ([], []) := hc
    exact ⟨_, l, hcomes, nextPaid_nil _ l, Or.inr ⟨nofun, .ok hrun⟩⟩

/-- Where the machine has no step, the parser ends. -/
theorem ends_of_comes (h : At p rs a) (hheader : ∀ t, lookahead rs = some t → t ∉ headerTokens)
    {c : Config} {l : Ledger Span} (hcomes : Comes rs a.free c l)
    (hstop : parserTable.nextPaid parserTariff (c, l) = none) : ParseEnds p (c, l) := by
  have hsame : ∀ {fuel : Nat}, rs.length < fuel →
      (parse fuel p = none ∧ Standstill c) ∨ parse fuel p ≠ none ∧ ParseEnds p (c, l) := by
    intro fuel hfuel
    obtain ⟨c', l', hcomes', hstop', hends⟩ := exists_ends_of_lt h hheader hfuel
    cases hcomes.unique hcomes' hstop hstop'
    exact hends
  rcases hsame (Nat.lt_succ_self rs.length) with ⟨-, hstand⟩ | ⟨-, hends⟩
  · refine .never (fun fuel => ?_) hstand
    -- a result with any fuel is one with enough
    rcases hrun : parse fuel p with _ | r
    · rfl
    have hmore := le_parse (Nat.le_max_left fuel (rs.length + 1)) p r hrun
    rcases hsame (Nat.lt_of_lt_of_le (Nat.lt_succ_self _) (Nat.le_max_right _ _)) with
      ⟨hnone, -⟩ | ⟨-, hends⟩
    · rw [hmore] at hnone
      cases hnone
    · cases hends with
      | ok => exact absurd hstand not_standstill_nil
      | error _ hstops => exact absurd hstand hstops.not_standstill
      | never hnone => exact absurd (hrun.symm.trans (hnone fuel)) nofun
  · exact hends

/-- There is one place at which the machine has no step. -/
theorem exists_ends (h : At p rs a) (hheader : ∀ t, lookahead rs = some t → t ∉ headerTokens) :
    ∃ c l, Comes rs a.free c l ∧ ParseEnds p (c, l) := by
  obtain ⟨c, l, hcomes, hstop, -⟩ := exists_ends_of_lt h hheader (Nat.lt_succ_self rs.length)
  exact ⟨c, l, hcomes, ends_of_comes h hheader hcomes hstop⟩

/-- The first loop of `nulang__parse` never ends at a header token. -/
theorem headerLoop_none {t : TokenType} (ht : lookahead rs = some t) (hmem : t ∈ headerTokens)
    (n : Nat) (h : At p rs a) : loop parseHeader n () p = none := by
  refine loop_eq_none_of_stuck (I := fun _ p => At p rs a) ?_ n () p h
  intro _ p h
  refine Or.inr ?_
  have hturn : Returns (parseHeader ()) p fun r p' => r = .yield () ∧ At p' rs a := by
    refine Returns.bind (parserPeek_returns h ht fun tok p₁ _ htype h₁ => ?_)
    rw [htype]
    simp only [headerTokens, List.mem_cons, List.not_mem_nil, or_false] at hmem
    rcases hmem with rfl | rfl
    all_goals exact Returns.pure ⟨rfl, h₁⟩
  obtain ⟨_, p', hrun, rfl, h'⟩ := hturn
  exact ⟨(), p', hrun, h'⟩

/-- A source from which the parser returns has no header token at its start. -/
theorem header_of_parse (h : At p rs a) {fuel : Nat} {r : Except Error Unit × Parser L}
    (hrun : parse fuel p = some r) : ∀ t, lookahead rs = some t → t ∉ headerTokens := by
  intro t ht hmem
  rw [parse, bind_run_none (headerLoop_none ht hmem fuel h)] at hrun
  cases hrun

/-- `nulang__parse` returns exactly when it stands still nowhere. -/
theorem parse_returns_iff (h : At p rs a) :
    (∃ fuel r, parse fuel p = some r) ↔ Halting rs a.free := by
  constructor
  · rintro ⟨fuel, r, hrun⟩
    have hheader := header_of_parse h hrun
    refine ⟨hheader, fun c l hcomes hstand => ?_⟩
    -- at a standstill the parser would end, and it does not
    have hstop := nextPaid_of_blocked (F := parserTariff) (blocked_of_standstill hstand) l
    cases ends_of_comes h hheader hcomes hstop with
    | ok => exact not_standstill_nil hstand
    | error _ hstops => exact hstops.not_standstill hstand
    | never hnone =>
        rw [hnone fuel] at hrun
        cases hrun
  · intro hhalt
    obtain ⟨c, l, hcomes, hends⟩ := exists_ends h hhalt.header
    cases hends with
    | ok hrun => exact ⟨_, _, hrun⟩
    | error hrun _ => exact ⟨_, _, hrun⟩
    | never _ hstand => exact absurd hstand (hhalt.goes c l hcomes)

/-- Where a parse that fails has stopped. -/
theorem stopsAt_of_parse (h : At p rs a) {fuel : Nat} {e : Error} {p' : Parser L}
    (hrun : parse fuel p = some (.error e, p')) :
    ∃ c l, Comes rs a.free c l ∧ StopsAt p.error.span e p' (c, l) := by
  obtain ⟨c, l, hcomes, hends⟩ := exists_ends h (header_of_parse h hrun)
  refine ⟨c, l, hcomes, ?_⟩
  cases hends with
  | ok hok => cases parse_unique hrun hok
  | error herror hstops =>
      cases parse_unique hrun herror
      exact hstops
  | never hnone =>
      rw [hnone fuel] at hrun
      cases hrun

/-- The parser succeeds where the grammar derives a module, when the nodes are enough. -/
theorem parse_of_derives {s : Syn} (h : At p rs a) (hder : DerivesModule rs s)
    (hsize : s.size ≤ a.free) : ∃ fuel p', parse fuel p = some (.ok (), p') := by
  have hrealizes : Realizes (.body moduleStop) rs s [] := realizes_of_derives hder.body
  have hfree : a.free - s.size + s.size = a.free := Nat.sub_add_cancel hsize
  obtain ⟨remark, hcomes⟩ : ∃ remark, Comes rs (a.free - s.size + s.size) ([], [])
      ⟨a.free - s.size, remark⟩ := hrealizes.runs .body rfl none
  rw [hfree] at hcomes
  cases ends_of_comes h hder.header hcomes (nextPaid_nil _ _) with
  | ok hrun => exact ⟨_, _, hrun⟩
  | error _ hstops =>
      cases hstops with
      | blocked hblocked => exact absurd hblocked not_blocked_nil
  | never _ hstand => exact absurd hstand not_standstill_nil

end

end Nucleus.Proofs
