import Nucleus.Proofs.Ending
import Nucleus.Proofs.Positions

/-!
# `Nucleus.Proofs.Exits`: the position of a parse that fails

A parse stops at one place of the machine, and `exitSpan` is the span that the error data have
there: that of the item that is rejected, or the last span that a dropped error has stored. It is
the span of a result of the source or of its end (`stands_of_parse`), and does not depend on what
was in the error data before (`span_unique`). The only exception is `EndsBlind`.
-/

set_option autoImplicit false

namespace Nucleus.Proofs

open Nucleus.Lib
open Nucleus.Lang
open Nucleus.Spec
open Nucleus.Lib.Predictive (Blocked PaidRuns nextPaid_of_blocked nextPaid_of_lt)

/-! ### The span at an exit -/

/-- The span that is stored where the next of the results `rs` is rejected, if there is one. -/
def rejectedSpan (l : Ledger Span) : List LexResult → Option Span
  | [] => some Token.eof.span
  | .ok token :: _ => some token.span
  | .error x :: _ => x.span.or l.remark

/-- The span that the parser has stored when it stops, if there is one. A node that is not free is
no error with a span. -/
def exitSpan (c : Config) (l : Ledger Span) : Option Span :=
  match c.1 with
  | .node :: _ => l.remark
  | _ => rejectedSpan l c.2

section
variable {c : Config} {l : Ledger Span}

/-- A node can always be chosen. -/
theorem ne_node_of_blocked {gs : List Goal} (h : parserTable.Blocked c) : c.1 ≠ .node :: gs := by
  obtain ⟨g, gs', hgs, hnone⟩ := h
  intro hnode
  rw [hnode] at hgs
  cases hgs
  cases hnone

/-- Where the machine has no choice the span is that of the next item, or the one remarked last. -/
theorem exitSpan_of_blocked (h : parserTable.Blocked c) : exitSpan c l = rejectedSpan l c.2 := by
  unfold exitSpan
  split
  · rename_i hnode
    exact absurd hnode (ne_node_of_blocked h)
  · rfl

section
variable {L : Type} [TokenSource L] [LawfulTokenSource L] {start : Span} {e : Error} {p : Parser L}

omit [TokenSource L] [LawfulTokenSource L] in
/-- The parser stops with the span of the exit. -/
theorem StopsAt.span_eq (h : StopsAt start e p (c, l)) :
    p.error.span = (exitSpan c l).getD start := by
  cases h with
  | node _ hspan => exact hspan
  | blocked hblocked _ hnames hkeeps =>
      obtain ⟨stack, rs⟩ := c
      rw [exitSpan_of_blocked hblocked]
      rcases rs with _ | ⟨⟨code, _ | s⟩ | token, rest⟩
      · exact hnames
      · obtain ⟨rfl, -⟩ := hnames
        exact hkeeps _ _ rfl
      · exact hnames.2 s rfl
      · exact hnames

omit [TokenSource L] [LawfulTokenSource L] in
/-- Without a span it is a blind exit. -/
theorem StopsAt.blind (h : StopsAt start e p (c, l)) (hnone : exitSpan c l = none) :
    l.remark = none ∧ BlindExit c l := by
  cases h with
  | @node gs => exact ⟨hnone, Or.inl ⟨gs, rfl, rfl⟩⟩
  | blocked hblocked _ hnames =>
      obtain ⟨stack, rs⟩ := c
      rw [exitSpan_of_blocked hblocked] at hnone
      rcases rs with _ | ⟨⟨code, span⟩ | token, rest⟩
      · cases hnone
      · obtain ⟨rfl, -⟩ := hnames
        obtain ⟨rfl, hremark⟩ := Option.or_eq_none_iff.mp hnone
        exact ⟨hremark, Or.inr ⟨hblocked, e, rest, rfl⟩⟩
      · cases hnone

end

/-- A blind exit without a remark has no span. -/
theorem exitSpan_of_blindExit (h : BlindExit c l) (hremark : l.remark = none) :
    exitSpan c l = none := by
  obtain ⟨stack, rs⟩ := c
  rcases h with ⟨gs, hgs, -⟩ | ⟨hblocked, code, rest, hrs⟩
  · obtain rfl : stack = .node :: gs := hgs
    exact hremark
  · obtain rfl : rs = .error ⟨some code, none⟩ :: rest := hrs
    rw [exitSpan_of_blocked hblocked]
    exact hremark

/-- At a blind exit the machine has no step. -/
theorem next_of_blindExit (h : BlindExit c l) :
    parserTable.nextPaid parserTariff (c, l) = none := by
  rcases h with ⟨gs, hgs, hbudget⟩ | ⟨hblocked, -⟩
  · obtain ⟨stack, rs⟩ := c
    obtain rfl : stack = .node :: gs := hgs
    refine nextPaid_of_lt ?_
    rw [hbudget]
    exact Nat.zero_lt_one
  · exact nextPaid_of_blocked hblocked l

/-- The parser does not stand still at a blind exit. -/
theorem not_standstill_of_blindExit (h : BlindExit c l) : ¬ Standstill c := by
  intro hstand
  rcases h with ⟨gs, hgs, -⟩ | ⟨-, code, rest, hrest⟩
  · exact ne_node_of_blocked (blocked_of_standstill hstand) hgs
  · rcases hstand with ⟨-, hendless⟩ | ⟨gs, t, -, ht, -⟩
    · rw [hrest] at hendless
      cases hendless
    · rw [hrest] at ht
      cases ht

end

/-! ### The spans of a source -/

/-- What a dropped error stores is the span of an item, or that of the end. -/
theorem stands_of_dropped {source : Source} {rs : List LexResult} {s : Span}
    (h : ∀ r ∈ rs, r ∈ resultsOf source) (hs : droppedSpan rs.head? = some s) :
    Stands source s := by
  rcases rs with _ | ⟨e | token, rest⟩
  · cases hs
    exact Or.inl rfl
  · exact Or.inr ⟨_, h _ List.mem_cons_self, hs⟩
  · rw [List.head?_cons, droppedSpan] at hs
    split at hs
    · cases hs
    · exact Or.inr ⟨_, h _ List.mem_cons_self, hs⟩

/-- The items that are ahead are those of the source, and the spans that are noted are theirs. -/
theorem stands_of_paidRuns {source : Source} {k : Nat} {d : Desk}
    (h : parserTable.PaidRuns parserTariff (([.body moduleStop], resultsOf source), ⟨k, none⟩) d) :
    (∀ r ∈ d.1.2, r ∈ resultsOf source) ∧ ∀ s, d.2.remark = some s → Stands source s := by
  induction h with
  | refl => exact ⟨fun _ hr => hr, nofun⟩
  | @tail d d' _ hstep ih =>
      obtain ⟨⟨stack, rs⟩, l⟩ := d
      obtain ⟨hitems, hremark⟩ := ih
      rcases stack with _ | ⟨g, gs⟩
      · cases hstep
      obtain ⟨l', hpay, hnext⟩ := Option.bind_eq_some_iff.mp hstep
      obtain ⟨c, hc, rfl⟩ := Option.map_eq_some_iff.mp hnext
      refine ⟨fun r hr => ?_, fun s hs => ?_⟩
      · -- a step takes an item or none
        obtain ⟨⟨take, ms⟩, -, rfl⟩ := Option.map_eq_some_iff.mp hc
        cases take with
        | true => exact hitems r (List.mem_of_mem_tail hr)
        | false => exact hitems r hr
      · -- only the goal that skips a result makes a remark
        unfold Tariff.pay at hpay
        split at hpay
        · cases hpay
          cases g with
          | skip =>
              rcases hdropped : droppedSpan rs.head? with _ | s'
              · exact hremark s (by simpa [parserTariff, hdropped] using hs)
              · obtain rfl : s' = s := by simpa [parserTariff, hdropped] using hs
                exact stands_of_dropped hitems hdropped
          | _ => exact hremark s hs
        · cases hpay

/-- The span of an exit stands in the source: it is that of an item that was met, or that of the
end. -/
theorem stands_of_exit {source : Source} {k : Nat} {c : Config} {l : Ledger Span} {s : Span}
    (h : Comes (resultsOf source) k c l) (hs : exitSpan c l = some s) : Stands source s := by
  obtain ⟨hitems, hremark⟩ := stands_of_paidRuns h
  unfold exitSpan at hs
  split at hs
  · exact hremark s hs
  · rcases hrs : c.2 with _ | ⟨e | token, rest⟩
    · rw [hrs] at hs
      cases hs
      exact Or.inl rfl
    · rw [hrs] at hs
      rcases Option.or_eq_some_iff.mp hs with hspan | ⟨-, hnoted⟩
      · exact Or.inr ⟨.error e, hitems _ (hrs ▸ List.mem_cons_self), hspan⟩
      · exact hremark s hnoted
    · rw [hrs] at hs
      exact Or.inr ⟨.ok token, hitems _ (hrs ▸ List.mem_cons_self), hs⟩

/-! ### Parses that fail -/

section
variable {L : Type} [TokenSource L] [LawfulTokenSource L] {p p' q q' : Parser L}
  {rs : List LexResult} {a b : Ast} {fuel fuel' : Nat} {e e' : Error}

/-- Where a parse stops that has stored a span. -/
theorem exit_of_parse (h : At p rs a) (hrun : parse fuel p = some (.error e, p'))
    (hblind : ¬ EndsBlind rs a.free) :
    ∃ c l s, Comes rs a.free c l ∧ parserTable.nextPaid parserTariff (c, l) = none ∧
      exitSpan c l = some s ∧ p'.error.span = s := by
  obtain ⟨c, l, hcomes, hstops⟩ := stopsAt_of_parse h hrun
  have hspan := hstops.span_eq
  rcases hexit : exitSpan c l with _ | s
  · obtain ⟨budget, remark⟩ := l
    obtain ⟨hremark, hexit⟩ := hstops.blind hexit
    obtain rfl : remark = none := hremark
    exact absurd ⟨c, budget, hcomes, hexit⟩ hblind
  · rw [hexit] at hspan
    exact ⟨c, l, s, hcomes, hstops.next_eq_none, hexit, hspan⟩

/-- Two parsers with the same results ahead and the same number of free nodes store the same span.
-/
theorem span_unique (h : At p rs a) (h' : At q rs b) (hfree : a.free = b.free)
    (hrun : parse fuel p = some (.error e, p')) (hrun' : parse fuel' q = some (.error e', q'))
    (hblind : ¬ EndsBlind rs b.free) : p'.error.span = q'.error.span := by
  obtain ⟨c, l, s, hcomes, hstop, hexit, hspan⟩ := exit_of_parse h hrun (hfree ▸ hblind)
  obtain ⟨c', l', s', hcomes', hstop', hexit', hspan'⟩ := exit_of_parse h' hrun' hblind
  rw [hfree] at hcomes
  cases hcomes.unique hcomes' hstop hstop'
  cases hexit.symm.trans hexit'
  exact hspan.trans hspan'.symm

/-- It is the span of a result of the source, or that of its end. -/
theorem stands_of_parse {source : Source} (h : At p (resultsOf source) a)
    (hrun : parse fuel p = some (.error e, p')) (hblind : ¬ EndsBlind (resultsOf source) a.free) :
    Stands source p'.error.span := by
  obtain ⟨c, l, s, hcomes, -, hexit, rfl⟩ := exit_of_parse h hrun hblind
  exact stands_of_exit hcomes hexit

/-- No statement begins with a header token, and the machine stops in front of it. -/
theorem header_of_endsBlind {k : Nat} (h : EndsBlind rs k) :
    ∀ t, lookahead rs = some t → t ∉ headerTokens := by
  intro t ht hmem
  obtain ⟨c, budget, hcomes, hexit⟩ := h
  obtain ⟨token, hahead, rfl⟩ := exists_ahead ht
  simp only [headerTokens, List.mem_cons, List.not_mem_nil, or_false] at hmem
  have hbody : Goal.table (.body moduleStop) token = expand [.stmt, .body moduleStop] := by
    refine if_neg ?_
    rcases hmem with htype | htype <;> rw [htype] <;> decide
  have hstmt : parserTable.Blocked ([.stmt, .body moduleStop], rs) := by
    refine blocked_of_table rfl hahead ?_
    show stmtTable token = none
    unfold stmtTable
    rcases hmem with htype | htype <;> rw [htype]
  cases hcomes.unique (goes rfl hahead hbody) (next_of_blindExit hexit)
    (nextPaid_of_blocked hstmt _)
  rcases hexit with ⟨gs, hgs, -⟩ | ⟨-, code, rest, hrest⟩
  · cases hgs
  · obtain rfl : rs = .error ⟨some code, none⟩ :: rest := hrest
    cases ht

/-- A parse that comes to a blind exit fails, and leaves the span as it was. -/
theorem parse_of_endsBlind (h : EndsBlind rs a.free) (hat : At p rs a) :
    ∃ fuel e p', parse fuel p = some (.error e, p') ∧
      p'.error.span = p.error.span ∧ ∃ c l, Comes rs a.free c l ∧ BlindExit c l ∧
        StopsAt p.error.span e p' (c, l) := by
  have hheader := header_of_endsBlind h
  obtain ⟨c, budget, hcomes, hexit⟩ := h
  cases ends_of_comes hat hheader hcomes (next_of_blindExit hexit) with
  | ok =>
      rcases hexit with ⟨gs, hgs, -⟩ | ⟨hblocked, -⟩
      · cases hgs
      · exact absurd hblocked not_blocked_nil
  | never _ hstand => exact absurd hstand (not_standstill_of_blindExit hexit)
  | error hrun hstops =>
      refine ⟨_, _, _, hrun, ?_, c, _, hcomes, hexit, hstops⟩
      rw [hstops.span_eq, exitSpan_of_blindExit hexit rfl]
      rfl

/-- The error codes of the blind exits. -/
theorem unplaced_of_endsBlind {source : Source} (h : EndsBlind (resultsOf source) a.free)
    (hat : At p (resultsOf source) a) (hrun : parse fuel p = some (.error e, p')) :
    e = .outOfNode ∨ e = .illegalCharacter := by
  obtain ⟨fuel', e', q, hrun', -, c, l, hcomes, hexit, hstops⟩ := parse_of_endsBlind h hat
  cases parse_unique hrun hrun'
  cases hstops with
  | node he => exact Or.inl he
  | blocked hblocked _ hnames =>
      rcases hexit with ⟨gs, hgs, -⟩ | ⟨-, code, rest, hrest⟩
      · exact absurd hgs (ne_node_of_blocked hblocked)
      · -- the lexer has only one error without a span
        rw [hrest] at hnames
        have hmem : .error ⟨some code, none⟩ ∈ resultsOf source :=
          (stands_of_paidRuns hcomes).1 _ (hrest ▸ List.mem_cons_self)
        have hinside : LexResult.Inside source.val.length (.error ⟨some code, none⟩) :=
          inside_resultsOf source _ hmem
        rcases hinside.2.2 rfl with hnone | hillegal
        · cases hnone
        · exact Or.inr (Option.some.inj (hnames.1.symm.trans hillegal))

end

end Nucleus.Proofs
