import Nucleus.Lib.Tracking
import Nucleus.Proofs.Parse
import Nucleus.Proofs.ParserTable

/-!
# `Nucleus.Proofs.InStep`: the parser and the table go in step

The parser and the machine of the table go through the results of a source in step (`InStep`). Where
a production succeeds, the machine has read the goal of the production and paid for its nodes. Where
it stops, the machine has no step either: the nodes are used up, or there is no choice for the item
that the error names (`StopsAt`). And where it never returns, the machine is at a standstill.

The last part needs fuel: the lemmas assume more of it than there are results ahead, which is what
the loops and the recursion of the parser come through.
-/

set_option autoImplicit false

namespace Nucleus.Proofs

open Nucleus.Lib
open Nucleus.Lib.Prog
open Nucleus.Lang
open Nucleus.Spec
open Nucleus.Lib.Predictive (Blocked PaidRuns)

variable {L : Type} [TokenSource L] [LawfulTokenSource L]

/-- Where the machine of the table stands, and its ledger. -/
abbrev Desk : Type := Config × Ledger Span

/-- The parser faces the results ahead with the free nodes of the ledger. The span in its error data
is the last one that was noted, or still the one it had at the start. -/
structure Faces (start : Span) (p : Parser L) (rs : List LexResult) (l : Ledger Span) : Prop where
  reads : LawfulTokenSource.Reads p.lexer rs
  free : p.ast.free = l.budget
  span : p.error.span = l.remark.getD start

/-- Where the parser stops: a node is due and none is free, or there is no choice for the item that
the error names. A lexical error without a span leaves the position as it was, and so does the
arena. -/
inductive StopsAt (start : Span) (e : Error) (p : Parser L) : Desk → Prop where
  | node {gs : List Goal} {rs : List LexResult} {remark : Option Span} :
      e = .outOfNode → p.error.span = remark.getD start →
      StopsAt start e p ((.node :: gs, rs), ⟨0, remark⟩)
  | blocked {c : Config} {l : Ledger Span} :
      parserTable.Blocked c → ¬ Standstill c → Names e p.error c.2 →
      (∀ code rest, c.2 = .error ⟨some code, none⟩ :: rest →
        p.error.span = l.remark.getD start) →
      StopsAt start e p (c, l)

/-- The parser and the machine go in step. -/
abbrev InStep (start : Span) {α : Type} (m : ParserM L α) (p : Parser L) (d : Desk)
    (Q : α → Parser L → Desk → Prop) : Prop :=
  Tracks (fun d d' => d' ∈ parserTable.nextPaid parserTariff d) (StopsAt start)
    (fun d => Standstill d.1) m p d Q

/-- The goal on the top is read, and fewer than `k` results are left. -/
def Done (start : Span) (gs : List Goal) (k : Nat) (p : Parser L) (d : Desk) : Prop :=
  ∃ rs l, d = ((gs, rs), l) ∧ Faces start p rs l ∧ rs.length < k

variable {start : Span}

/-! ### Where the machine has no choice -/

section
variable {g : Goal} {gs : List Goal} {rs : List LexResult}

/-- Without a token ahead the machine has no choice. -/
theorem blocked_of_error (hnone : g.always rs.head? = none) (h : ahead rs.head? = none) :
    parserTable.Blocked (g :: gs, rs) := by
  refine ⟨g, gs, rfl, ?_⟩
  show (g.always rs.head? <|> (ahead rs.head?).bind g.table) = none
  rw [hnone, h]
  rfl

/-- Where the table has no entry the machine has no choice. -/
theorem blocked_of_table {t : Token} (hnone : g.always rs.head? = none)
    (hahead : ahead rs.head? = some t) (htable : g.table t = none) :
    parserTable.Blocked (g :: gs, rs) :=
  ⟨g, gs, rfl, (select_ahead hnone hahead).trans htable⟩

/-- The span of the token ahead names the first result. -/
theorem names_of_ahead {t : Token} {e : Error} {d : ErrorData} (hahead : ahead rs.head? = some t)
    (hspan : d.span = t.span) : Names e d rs := by
  rcases rs with _ | ⟨_ | t', rs⟩ <;> cases hahead
  · exact hspan
  · exact hspan

/-- A token ahead is no numeral without an end. -/
theorem not_endless_of_ahead {t : Token} (hahead : ahead rs.head? = some t) :
    endless rs.head? = false := by
  rcases rs with _ | ⟨_ | t', rs⟩ <;> cases hahead
  · rfl
  · rfl

/-- A token that is not the end is the first of the results. -/
theorem tail_lt {t : Token} (hahead : ahead rs.head? = some t) (ht : t.type ≠ .tokenEof) :
    rs.tail.length < rs.length := by
  rcases rs with _ | ⟨_ | t', rs⟩
  · cases hahead
    exact absurd rfl ht
  · cases hahead
  · exact Nat.lt_succ_self _

omit [TokenSource L] [LawfulTokenSource L] in
/-- The parser rejects a token that the table has no choice for. -/
theorem stopsAt_token {e : Error} {p : Parser L} {t : Token} {l : Ledger Span}
    (hblocked : parserTable.Blocked (gs, rs)) (hahead : ahead rs.head? = some t)
    (hstmt : ∀ gs', gs = .stmt :: gs' → t.type ∉ idleTokens) (hspan : p.error.span = t.span) :
    StopsAt start e p ((gs, rs), l) := by
  refine .blocked hblocked ?_ (names_of_ahead hahead hspan) fun code rest hrs => ?_
  · rintro (⟨-, hendless⟩ | ⟨gs', t', hgs, ht', hidle⟩)
    · exact absurd (hendless.symm.trans (not_endless_of_ahead hahead)) (by decide)
    · obtain rfl := lookahead_inj ht' (lookahead_of_ahead hahead)
      exact hstmt gs' hgs hidle
  · obtain rfl : rs = .error ⟨some code, none⟩ :: rest := hrs
    cases hahead

end

/-! ### The primitive steps -/

section
variable {α : Type} {p : Parser L} {d : Desk} {gs : List Goal} {rs : List LexResult}
  {l : Ledger Span} {Q : α → Parser L → Desk → Prop}

/-- A call of the lexer that fails stops the parser at the error it meets. One that never returns
leaves it there. -/
theorem inStep_fromLexer {call : L → LexResult × L} {f : Token → ParserM L α} {x : LexError}
    (h : Faces start p (.error x :: rs) l) (hcall : (call p.lexer).1 = .error x)
    (hblocked : parserTable.Blocked (gs, .error x :: rs)) :
    InStep start (fromLexer call >>= f) p ((gs, .error x :: rs), l) Q := by
  obtain ⟨_ | code, span⟩ := x
  · -- a call that never returns leaves the stack where it stands
    have hnone := bind_run_none (f := f) (fromLexer_endless call hcall)
    exact Tracks.of_none hnone (Or.inl ⟨hblocked, rfl⟩)
  · -- any other error stops the parser, with the span of the result if it has one
    have hrun := bind_run_error (f := f) (fromLexer_error call hcall)
    have hgoes : ¬ Standstill (gs, .error ⟨some code, span⟩ :: rs) := by
      rintro (⟨-, hendless⟩ | ⟨gs', t, -, hahead, -⟩)
      · cases hendless
      · cases hahead
    refine Tracks.of_error hrun (.blocked hblocked hgoes ⟨rfl, ?_⟩ ?_)
    · rintro s rfl
      rfl
    · rintro code' rest hrs
      cases hrs
      exact h.span

/-- A peek takes no step, or the machine is blocked as well. -/
theorem inStep_peek {f : Token → ParserM L α} (h : Faces start p rs l)
    (hblocked : ahead rs.head? = none → parserTable.Blocked (gs, rs))
    (hf : ∀ t p', ahead rs.head? = some t → Faces start p' rs l → p'.ast = p.ast →
      InStep start (f t) p' ((gs, rs), l) Q) :
    InStep start (parserPeek 0 >>= f) p ((gs, rs), l) Q := by
  rcases rs with _ | ⟨x | t, rs⟩
  · obtain ⟨hresult, hnext⟩ := LawfulTokenSource.peek_nil h.reads
    refine Tracks.bind (Tracks.of_ok (fromLexer_ok _ hresult) (hf _ _ rfl ?_ rfl))
    exact ⟨hnext, h.free, h.span⟩
  · exact inStep_fromLexer h (LawfulTokenSource.peek_error h.reads).1 (hblocked rfl)
  · obtain ⟨hresult, hnext⟩ := LawfulTokenSource.peek_ok h.reads
    refine Tracks.bind (Tracks.of_ok (fromLexer_ok _ hresult) (hf _ _ rfl ?_ rfl))
    exact ⟨hnext, h.free, h.span⟩

/-- The parser takes a token that it has seen. -/
theorem inStep_consume {t : Token} {f : Token → ParserM L α} (h : Faces start p rs l)
    (hahead : ahead rs.head? = some t)
    (hf : ∀ p', Faces start p' rs.tail l → p'.ast = p.ast → InStep start (f t) p' d Q) :
    InStep start (parserConsume >>= f) p d Q := by
  rcases rs with _ | ⟨x | t', rs⟩
  · obtain ⟨hresult, hnext⟩ := LawfulTokenSource.next_nil h.reads
    cases hahead
    exact Tracks.bind (Tracks.of_ok (fromLexer_ok _ hresult) (hf _ ⟨hnext, h.free, h.span⟩ rfl))
  · cases hahead
  · obtain ⟨hresult, hnext⟩ := LawfulTokenSource.next_cons h.reads
    cases hahead
    exact Tracks.bind (Tracks.of_ok (fromLexer_ok _ hresult) (hf _ ⟨hnext, h.free, h.span⟩ rfl))

omit [TokenSource L] [LawfulTokenSource L] in
/-- The parser reports an error where the machine is blocked. -/
theorem inStep_report {e : Error} {g : ErrorData → ErrorData} {f : Unit → ParserM L α} {t : Token}
    (hblocked : parserTable.Blocked (gs, rs)) (hahead : ahead rs.head? = some t)
    (hstmt : ∀ gs', gs = .stmt :: gs' → t.type ∉ idleTokens) (hspan : (g p.error).span = t.span)
    (hf : f () = Prog.fail e) : InStep start (report g >>= f) p ((gs, rs), l) Q := by
  refine Tracks.bind (Tracks.modify ?_)
  rw [hf]
  exact Tracks.fail (stopsAt_token hblocked hahead hstmt hspan)

/-- What the parser expects is the token that the machine takes, or the machine is blocked. -/
theorem inStep_expect {type : TokenType} {f : Token → ParserM L α} (h : Faces start p rs l)
    (hblocked : (∀ t, ahead rs.head? = some t → t.type ≠ type) → parserTable.Blocked (gs, rs))
    (hstmt : ∀ gs', gs ≠ .stmt :: gs')
    (hf : ∀ t p', ahead rs.head? = some t → t.type = type → Faces start p' rs.tail l →
      p'.ast = p.ast → InStep start (f t) p' ((gs, rs), l) Q) :
    InStep start (parserExpect type >>= f) p ((gs, rs), l) Q := by
  show InStep start ((parserConsume >>= _) >>= f) p ((gs, rs), l) Q
  rw [Prog.bind_assoc]
  cases hahead : ahead rs.head? with
  | none =>
      -- the lexer fails
      have hstop := hblocked fun t ht => by
        rw [hahead] at ht
        cases ht
      rcases rs with _ | ⟨x | t, rs⟩
      · cases hahead
      · exact inStep_fromLexer h (LawfulTokenSource.next_cons h.reads).1 hstop
      · cases hahead
  | some t =>
      refine inStep_consume h hahead fun p' h' hast => ?_
      by_cases ht : t.type = type
      · rw [if_neg (not_not_intro ht)]
        exact Tracks.bind (Tracks.pure (hf t p' hahead ht h' hast))
      · rw [if_pos ht, Prog.bind_assoc]
        have hstop := hblocked fun t' ht' => by
          rw [hahead] at ht'
          cases ht'
          exact ht
        exact inStep_report hstop hahead (fun gs' hgs => absurd hgs (hstmt gs')) rfl rfl

/-- A token that the machine has to read, too. -/
theorem inStep_tok {type : TokenType} {f : Token → ParserM L α} (h : Faces start p rs l)
    (heof : type ≠ .tokenEof)
    (hf : ∀ t p', ahead rs.head? = some t → Faces start p' rs.tail l →
      rs.tail.length < rs.length → InStep start (f t) p' ((gs, rs.tail), l) Q) :
    InStep start (parserExpect type >>= f) p ((.tok type :: gs, rs), l) Q := by
  refine inStep_expect h (fun hne => ?_) nofun fun t p' hahead ht h' _ => ?_
  · cases hahead : ahead rs.head? with
    | none => exact blocked_of_error rfl hahead
    | some t => exact blocked_of_table rfl hahead (if_neg (hne t hahead))
  · have hlt : rs.tail.length < rs.length := tail_lt hahead (ht.symm ▸ heof)
    exact Tracks.step (goes_taking rfl hahead (if_pos ht)) (hf t p' hahead h' hlt)

/-- What the parser accepts decides the choice of the machine. -/
theorem inStep_accept {g : Goal} {type : TokenType} {f : Option Token → ParserM L α}
    (hnone : g.always rs.head? = none) (h : Faces start p rs l) (heof : type ≠ .tokenEof)
    (hsome : ∀ t p', ahead rs.head? = some t → t.type = type → Faces start p' rs.tail l →
      rs.tail.length < rs.length → InStep start (f (some t)) p' ((g :: gs, rs), l) Q)
    (hother : ∀ t p', ahead rs.head? = some t → t.type ≠ type → Faces start p' rs l →
      InStep start (f none) p' ((g :: gs, rs), l) Q) :
    InStep start (parserAccept type >>= f) p ((g :: gs, rs), l) Q := by
  show InStep start ((parserPeek 0 >>= _) >>= f) p ((g :: gs, rs), l) Q
  rw [Prog.bind_assoc]
  refine inStep_peek h (blocked_of_error hnone) fun t p' hahead h' _ => ?_
  by_cases ht : t.type = type
  · rw [if_pos ht, Prog.bind_assoc]
    have hlt : rs.tail.length < rs.length := tail_lt hahead (ht.symm ▸ heof)
    refine inStep_consume h' hahead fun p'' h'' _ => ?_
    exact Tracks.bind (Tracks.pure (hsome t p'' hahead ht h'' hlt))
  · rw [if_neg ht]
    exact Tracks.bind (Tracks.pure (hother t p' hahead ht h'))

/-- A node of the arena, where one is due. -/
theorem inStep_addNode {f : NodeId → ParserM L α} (h : Faces start p rs l)
    (hf : ∀ id p' l', Faces start p' rs l' → InStep start (f id) p' ((gs, rs), l') Q) :
    InStep start (parserAddNode >>= f) p ((.node :: gs, rs), l) Q := by
  obtain ⟨budget, remark⟩ := l
  cases hadd : addNode p.ast with
  | none =>
      have hrun : parserAddNode p = some (.error .outOfNode, p) := by
        unfold parserAddNode
        rw [hadd]
      -- the arena is full, and so no budget is left
      have hfull : budget = 0 := h.free.symm.trans (free_of_addNode_none hadd)
      subst hfull
      exact Tracks.of_error (bind_run_error hrun) (.node rfl h.span)
  | some r =>
      obtain ⟨id, b⟩ := r
      -- the new node is paid from the budget
      have hpaid : budget = b.free + 1 := h.free.symm.trans (addNode_free hadd).2
      subst hpaid
      refine Tracks.step goes_node (Tracks.bind (Tracks.of_ok (parserAddNode_run hadd) ?_))
      exact hf id _ ⟨b.free, remark⟩ ⟨h.reads, rfl, h.span⟩

/-- A change of a node takes no step. -/
theorem inStep_setNode {id : NodeId} {g : Node → Node} {f : Unit → ParserM L α}
    (h : Faces start p rs l)
    (hf : ∀ p', Faces start p' rs l → p'.ast.nodes id = g (p.ast.nodes id) →
      InStep start (f ()) p' d Q) : InStep start (setNode id g >>= f) p d Q :=
  Tracks.bind (Tracks.modify (hf _ ⟨h.reads, h.free, h.span⟩ (Ast.modifyNode_nodes_self ..)))

/-- Appending takes no step. -/
theorem inStep_append {parent child : NodeId} {f : Unit → ParserM L α} (h : Faces start p rs l)
    (hf : ∀ p', Faces start p' rs l → (∀ id, (p'.ast.nodes id).kind = (p.ast.nodes id).kind) →
      InStep start (f ()) p' d Q) : InStep start (parserAppendChild parent child >>= f) p d Q := by
  have hfree : (appendChild p.ast parent child).free = l.budget := by
    rw [free_appendChild]
    exact h.free
  exact Tracks.bind (Tracks.modify (hf _ ⟨h.reads, hfree, h.span⟩ fun _ => kind_appendChild ..))

end

/-! ### Goals that are read -/

section
variable {α β : Type} {p : Parser L} {gs : List Goal} {rs : List LexResult} {l : Ledger Span}

/-- Behind a program that reads its goal. -/
theorem inStep_bind {m : ParserM L α} {f : α → ParserM L β} {d : Desk} {k : Nat}
    {Q : β → Parser L → Desk → Prop} (h : InStep start m p d fun _ => Done start gs k)
    (hf : ∀ a p' rs' l', Faces start p' rs' l' → rs'.length < k →
      InStep start (f a) p' ((gs, rs'), l') Q) : InStep start (m >>= f) p d Q := by
  refine Tracks.bind (h.mono fun a p' d' hdone => ?_)
  obtain ⟨rs', l', rfl, h', hlt⟩ := hdone
  exact hf a p' rs' l' h' hlt

/-- Where nothing is left to read of the goal. -/
theorem Faces.done (h : Faces start p rs l) :
    Done start gs (rs.length + 1) p ((gs, rs), l) := ⟨rs, l, rfl, h, Nat.lt_succ_self _⟩

/-- A goal that has read something has read at least as much. -/
theorem Done.mono {k k' : Nat} {d : Desk} (hk : k ≤ k')
    (h : Done start gs k p d) : Done start gs k' p d := by
  obtain ⟨rs', l', hd, h', hlt⟩ := h
  exact ⟨rs', l', hd, h', hlt.trans_le hk⟩

/-- A program that leaves fewer results than it has to. -/
theorem inStep_le {m : ParserM L α} {d : Desk} {k k' : Nat} (hk : k ≤ k')
    (h : InStep start m p d fun _ => Done start gs k) :
    InStep start m p d fun _ => Done start gs k' :=
  h.mono fun _ _ _ => Done.mono hk

omit [TokenSource L] [LawfulTokenSource L] in
/-- A goal that the machine replaces whatever comes. -/
theorem inStep_always {m : ParserM L α} {g : Goal} {k : List Goal}
    {Q : α → Parser L → Desk → Prop} (hprice : parserTariff.price g = 0)
    (halways : g.always rs.head? = expand k) (h : InStep start m p ((k ++ gs, rs), l) Q) :
    InStep start m p ((g :: gs, rs), l) Q :=
  Tracks.step (goes_always hprice halways) h

omit [TokenSource L] [LawfulTokenSource L] in
/-- A goal that the machine drops in front of the token. -/
theorem inStep_empty {g : Goal} {t : Token} {a : α} {Q : α → Parser L → Desk → Prop}
    (hnone : g.always rs.head? = none) (hahead : ahead rs.head? = some t)
    (htable : g.table t = expand []) (h : Q a p ((gs, rs), l)) :
    InStep start (pure a) p ((g :: gs, rs), l) Q :=
  Tracks.step (goes hnone hahead htable) (Tracks.pure h)

end

/-! ### Types and designators -/

/-- A designator on the top is read. -/
def DoneAt (start : Span) (d : Designator) (gs : List Goal) (k : Nat) (id : NodeId) (p : Parser L)
    (desk : Desk) : Prop :=
  ∃ rs l, desk = ((gs, rs), l) ∧ Faces start p rs l ∧ rs.length < k ∧
    (p.ast.nodes id).kind.designator = some d

section
variable {p : Parser L} {gs : List Goal} {rs : List LexResult} {l : Ledger Span}

/-- `nulang__parse_vartype` reads the goal `.type`. -/
theorem vartype_inStep (h : Faces start p rs l) :
    InStep start parseVartype p ((.type :: gs, rs), l) fun _ => Done start gs rs.length := by
  refine inStep_always rfl rfl (inStep_tok h (by decide) fun c p₁ _ h₁ hlt => ?_)
  refine inStep_accept rfl h₁ (by decide) (fun t p₂ hahead ht h₂ hlt₂ => ?_) ?_
  · refine Tracks.step (goes_taking rfl hahead (if_pos (Or.inl ht))) (Tracks.pure ?_)
    exact ⟨_, l, rfl, h₂, hlt₂.trans hlt⟩
  intro t p₂ hahead hprimitive h₂
  refine inStep_accept rfl h₂ (by decide) (fun t p₃ hahead ht h₃ hlt₃ => ?_) ?_
  · refine Tracks.step (goes_taking rfl hahead (if_pos (Or.inr ht))) (Tracks.pure ?_)
    exact ⟨_, l, rfl, h₃, hlt₃.trans hlt⟩
  intro t' p₃ hahead' hident h₃
  obtain rfl : t = t' := Option.some.inj (hahead.symm.trans hahead')
  refine inStep_consume h₃ hahead fun p₄ _ _ => ?_
  have hneither : ¬ (t.type = .tokenPrimitive ∨ t.type = .tokenIdentifier) :=
    not_or.mpr ⟨hprimitive, hident⟩
  exact inStep_report (blocked_of_table rfl hahead (if_neg hneither)) hahead (by rintro _ ⟨⟩)
    rfl rfl

/-- `nulang__try_parse_vartype` reads the goal `.typeOpt`. -/
theorem tryVartype_inStep (h : Faces start p rs l) :
    InStep start tryParseVartype p ((.typeOpt :: gs, rs), l)
      fun _ => Done start gs (rs.length + 1) := by
  refine inStep_peek h (blocked_of_error rfl) fun t p₁ hahead h₁ _ => ?_
  split
  · rename_i ht
    refine Tracks.step (goes rfl hahead (if_pos ht)) ?_
    refine inStep_bind (vartype_inStep h₁) fun _ p₂ rs₂ l₂ h₂ hlt => ?_
    exact Tracks.pure ⟨rs₂, l₂, rfl, h₂, by omega⟩
  · rename_i ht
    exact inStep_empty rfl hahead (if_neg ht) h₁.done

/-- `nulang__parse_symbol` reads a name and pays for its node. -/
theorem symbol_inStep (h : Faces start p rs l) :
    InStep start parseSymbol p ((.tok .tokenIdentifier :: .node :: gs, rs), l)
      (DoneAt start .place gs rs.length) := by
  refine inStep_tok h (by decide) fun t p₁ _ h₁ hlt => inStep_addNode h₁ fun id p₂ l₂ h₂ => ?_
  refine inStep_setNode h₂ fun p₃ h₃ hnode => Tracks.pure ⟨_, l₂, rfl, h₃, hlt, ?_⟩
  rw [hnode]
  rfl

/-- A primitive is read, and its node is paid for. -/
theorem constructor_inStep {t : Token} (h : Faces start p rs l) (hahead : ahead rs.head? = some t) :
    InStep start parseConstructor p ((.tok .tokenPrimitive :: .node :: gs, rs), l)
      (DoneAt start (.constructor t.value.toPrimitive) gs rs.length) := by
  refine inStep_tok h (by decide) fun t' p₁ hahead' h₁ hlt => ?_
  refine inStep_addNode h₁ fun id p₂ l₂ h₂ => ?_
  obtain rfl : t = t' := Option.some.inj (hahead.symm.trans hahead')
  refine inStep_setNode h₂ fun p₃ h₃ hnode => Tracks.pure ⟨_, l₂, rfl, h₃, hlt, ?_⟩
  rw [hnode]
  rfl

/-- The name behind the dot has been taken by the parser, and is next for the machine. A place gets
a member node above it. -/
theorem memberOfPlace_inStep {child : NodeId} {t : Token} (h : Faces start p rs.tail l)
    (hahead : ahead rs.head? = some t) (ht : t.type = .tokenIdentifier) :
    InStep start (parserAddNode >>= fun node =>
      setNode node (fun n => { n with
          span := t.span, type := .astMember, value := .member t.value.toIdentifier }) >>=
        fun _ => parserAppendChild node child >>= fun _ => pure node) p
      ((.member .place :: gs, rs), l) (DoneAt start .place gs rs.length) := by
  have hlt : rs.tail.length < rs.length := tail_lt hahead (by rw [ht]; decide)
  have htable : Goal.table (.member .place) t = some (true, [.node]) := if_pos ⟨ht, rfl⟩
  refine Tracks.step (goes_choosing rfl hahead htable) (inStep_addNode h fun id p₁ l₁ h₁ => ?_)
  refine inStep_setNode h₁ fun p₂ h₂ hnode => inStep_append h₂ fun p₃ h₃ hkinds => ?_
  refine Tracks.pure ⟨_, l₁, rfl, h₃, hlt, ?_⟩
  rw [hkinds, hnode]
  rfl

/-- The member node reads the goal `.member`: a place pays for a node, and a builtin function takes
over that of its primitive. -/
theorem memberNode_inStep {d : Designator} {child : NodeId} {t : Token}
    (h : Faces start p rs.tail l) (hkind : (p.ast.nodes child).kind.designator = some d)
    (hahead : ahead rs.head? = some t) (ht : t.type = .tokenIdentifier) :
    InStep start (memberNode child t) p ((.member d :: gs, rs), l)
      (DoneAt start d.next gs rs.length) := by
  have hlt : rs.tail.length < rs.length := tail_lt hahead (by rw [ht]; decide)
  have htake : d.hasMember t.value.toIdentifier = true →
      parserTable.PaidRuns parserTariff ((.member d :: gs, rs), l)
        ((List.replicate d.nodes .node ++ gs, rs.tail), l) := by
    intro hhas
    have htable : Goal.table (.member d) t = some (true, List.replicate d.nodes .node) :=
      if_pos ⟨ht, hhas⟩
    exact goes_choosing rfl hahead htable
  have hblocked : ¬ d.hasMember t.value.toIdentifier = true →
      parserTable.Blocked (.member d :: gs, rs) := fun hhas =>
    blocked_of_table rfl hahead (if_neg fun hboth => hhas hboth.2)
  refine Tracks.bind (Tracks.gets ?_)
  generalize hk : (p.ast.nodes child).kind = k at hkind
  cases k with
  | symref name =>
      have htype : (p.ast.nodes child).type = .astSymref := Node.type_of_kind hk (by simp)
      simp only [htype]
      cases hkind
      exact memberOfPlace_inStep h hahead ht
  | member name =>
      have htype : (p.ast.nodes child).type = .astMember := Node.type_of_kind hk (by simp)
      simp only [htype]
      cases hkind
      exact memberOfPlace_inStep h hahead ht
  | builtin b =>
      have htype : (p.ast.nodes child).type = .astBuiltin := Node.type_of_kind hk (by simp)
      have hvalue := Node.value_of_kind_builtin hk
      simp only [htype, hvalue]
      cases b with
      | builtinConstructor primitive =>
          cases hkind
          dsimp only
          split
          · rename_i hfind
            refine inStep_report (hblocked ?_) hahead (by rintro _ ⟨⟩) rfl rfl
            show ¬ (findBuiltinFunction primitive t.value.toIdentifier).isSome = true
            rw [hfind]
            decide
          · rename_i function hfind
            have hhas : (findBuiltinFunction primitive t.value.toIdentifier).isSome = true := by
              rw [hfind]
              rfl
            -- the function takes the node of the constructor
            refine Tracks.step (htake hhas) (inStep_setNode h fun p₁ h₁ hnode => ?_)
            refine Tracks.pure ⟨_, l, rfl, h₁, hlt, ?_⟩
            rw [hnode]
            unfold Node.kind
            simp only [htype]
            rfl
      | builtinFunction f =>
          cases hkind
          exact inStep_report (hblocked nofun) hahead (by rintro _ ⟨⟩) rfl rfl
      | builtinConstant => cases hkind
  | _ => cases hkind

/-- A member chain at its dot. -/
theorem memberChain_inStep : ∀ (n : Nat) {p : Parser L} {rs : List LexResult} {l : Ledger Span}
    {d : Designator} {child : NodeId} {t : Token}, Faces start p rs l → rs.length < n →
    (p.ast.nodes child).kind.designator = some d → ahead rs.head? = some t → t.type = .tokenDot →
    InStep start (parseMemberChain n child) p ((.chain d :: gs, rs), l)
      fun _ => Done start gs rs.length := by
  intro n
  induction n with
  | zero => exact fun _ hn => absurd hn (Nat.not_lt_zero _)
  | succ n ih =>
      intro p rs l d child t h hn hkind hahead ht
      have hlt : rs.tail.length < rs.length := tail_lt hahead (by rw [ht]; decide)
      -- the machine takes the dot with the parser
      have htable : Goal.table (.chain d) t = some (true, [.member d, .chain d.next]) := if_pos ht
      have hdot : parserTable.PaidRuns parserTariff ((.chain d :: gs, rs), l)
          ((.member d :: .chain d.next :: gs, rs.tail), l) := goes_choosing rfl hahead htable
      refine inStep_expect h (fun hne => absurd ht (hne t hahead)) nofun ?_
      intro t' p₁ _ _ h₁ hast
      refine Tracks.step hdot (inStep_expect h₁ (fun hne => ?_) nofun ?_)
      · cases hahead₁ : ahead rs.tail.head? with
        | none => exact blocked_of_error rfl hahead₁
        | some t₁ =>
            exact blocked_of_table rfl hahead₁ (if_neg fun hboth => hne t₁ hahead₁ hboth.1)
      intro name p₂ hahead₂ hname h₂ hast₂
      rw [← hast, ← hast₂] at hkind
      refine Tracks.bind ((memberNode_inStep h₂ hkind hahead₂ hname).mono ?_)
      rintro id p₃ _ ⟨rs₃, l₃, rfl, h₃, hlt₃, hkind₃⟩
      refine inStep_peek h₃ (blocked_of_error rfl) fun t₃ p₄ hahead₃ h₄ hast₄ => ?_
      rw [← hast₄] at hkind₃
      split
      · rename_i hdot₃
        exact inStep_le (by omega) (ih h₄ (by omega) hkind₃ hahead₃ hdot₃)
      · rename_i hdot₃
        exact inStep_le (by omega) (inStep_empty rfl hahead₃ (if_neg hdot₃) h₄.done)

/-- The optional chain reads the goal `.chain`. -/
theorem tryMemberChain_inStep {n : Nat} {d : Designator} {node : NodeId}
    (h : Faces start p rs l) (hn : rs.length < n)
    (hkind : (p.ast.nodes node).kind.designator = some d) :
    InStep start (tryParseMemberChain n node) p ((.chain d :: gs, rs), l)
      fun _ => Done start gs (rs.length + 1) := by
  refine inStep_peek h (blocked_of_error rfl) fun t p₁ hahead h₁ hast => ?_
  rw [← hast] at hkind
  split
  · rename_i hdot
    exact inStep_le (Nat.le_succ _) (memberChain_inStep n h₁ hn hkind hahead hdot)
  · rename_i hdot
    exact inStep_empty rfl hahead (if_neg hdot) h₁.done

end

/-! ### Expressions -/

/-- The forward-declared productions keep in step, on fewer than `n` results. -/
structure CalleesInStep (start : Span) (n : Nat) (callee : Productions L) : Prop where
  expr : ∀ {m : Nat} {p : Parser L} {gs : List Goal} {rs : List LexResult} {l : Ledger Span},
    Faces start p rs l → rs.length < n →
    InStep start (callee.parseExpr m) p ((.expr m :: gs, rs), l) fun _ => Done start gs rs.length
  primary : ∀ {p : Parser L} {gs : List Goal} {rs : List LexResult} {l : Ledger Span},
    Faces start p rs l → rs.length < n →
    InStep start callee.parsePrimary p ((.primary :: gs, rs), l) fun _ => Done start gs rs.length
  stmt : ∀ {p : Parser L} {gs : List Goal} {rs : List LexResult} {l : Ledger Span},
    Faces start p rs l → rs.length < n → (∀ t, lookahead rs = some t → t ∉ idleTokens) →
    InStep start callee.parseStmt p ((.stmt :: gs, rs), l) fun _ => Done start gs rs.length
  idle : Idles callee

section
variable {self : Productions L} {n : Nat} {p : Parser L} {gs : List Goal} {rs : List LexResult}
  {l : Ledger Span}

/-- The first argument reads the goal `.firstArg`. -/
theorem firstArg_inStep (hself : CalleesInStep start n self) {node : NodeId}
    (h : Faces start p rs l) (hn : rs.length < n) :
    InStep start (parseFirstArg self node) p ((.firstArg :: gs, rs), l)
      fun _ => Done start gs (rs.length + 1) := by
  refine inStep_peek h (blocked_of_error rfl) fun t p₁ hahead h₁ _ => ?_
  by_cases ht : t.type = .tokenRparen
  · rw [if_neg (not_not_intro ht)]
    exact inStep_empty rfl hahead (if_pos ht) h₁.done
  · rw [if_pos ht]
    refine Tracks.step (goes rfl hahead (if_neg ht)) (inStep_bind (hself.expr h₁ hn) ?_)
    intro _ p₂ rs₂ l₂ h₂ hlt
    refine Tracks.modify ⟨rs₂, l₂, rfl, ⟨h₂.reads, ?_, h₂.span⟩, by omega⟩
    rw [free_appendChild]
    exact h₂.free

/-- The loop over the further arguments reads the goal `.args`. The induction is on its fuel. -/
theorem nextArgs_inStep (hself : CalleesInStep start n self) {node : NodeId} : ∀ (m : Nat)
    {p : Parser L} {rs : List LexResult} {l : Ledger Span}, Faces start p rs l →
    rs.length < m → rs.length ≤ n →
    InStep start (loop (parseNextArg self node) m ()) p ((.args :: gs, rs), l)
      fun _ => Done start gs (rs.length + 1) := by
  intro m
  induction m with
  | zero => exact fun _ hm => absurd hm (Nat.not_lt_zero _)
  | succ m ih =>
      intro p rs l h hm hn
      refine Tracks.loop_succ (inStep_accept rfl h (by decide) (fun t p₁ hahead ht h₁ hlt => ?_) ?_)
      · refine Tracks.step (goes_tok rfl hahead ht (if_pos ht)) ?_
        refine inStep_bind (hself.expr h₁ (by omega)) fun _ p₂ rs₂ l₂ h₂ hlt₂ => ?_
        refine inStep_append h₂ fun p₃ h₃ _ => Tracks.pure ?_
        exact inStep_le (by omega) (ih h₃ (by omega) (by omega))
      · intro t p₁ hahead ht h₁
        exact inStep_empty rfl hahead (if_neg ht) h₁.done

/-- `nulang__parse_call` reads the goal `.call`. -/
theorem call_inStep (hself : CalleesInStep start n self) {ident : NodeId} (h : Faces start p rs l)
    (hn : rs.length ≤ n) :
    InStep start (parseCall n self ident) p ((.call :: gs, rs), l)
      fun _ => Done start gs rs.length := by
  refine inStep_always rfl rfl (inStep_addNode h fun node p₁ l₁ h₁ => ?_)
  refine inStep_setNode h₁ fun p₂ h₂ _ => inStep_append h₂ fun p₃ h₃ _ => ?_
  refine inStep_tok h₃ (by decide) fun _ p₄ _ h₄ hlt₄ => ?_
  refine inStep_bind (firstArg_inStep hself h₄ (by omega)) fun _ p₅ rs₅ l₅ h₅ hlt₅ => ?_
  refine inStep_bind (nextArgs_inStep hself n h₅ (by omega) (by omega)) ?_
  intro _ p₆ rs₆ l₆ h₆ hlt₆
  refine inStep_tok h₆ (by decide) fun _ p₇ _ h₇ hlt₇ => Tracks.pure ?_
  exact ⟨_, l₆, rfl, h₇, by omega⟩

/-- The optional call reads the goal `.callOpt`. -/
theorem tryCall_inStep (hself : CalleesInStep start n self) {node : NodeId}
    (h : Faces start p rs l) (hn : rs.length ≤ n) :
    InStep start (tryParseCall n self node) p ((.callOpt :: gs, rs), l)
      fun _ => Done start gs (rs.length + 1) := by
  refine inStep_peek h (blocked_of_error rfl) fun t p₁ hahead h₁ _ => ?_
  split
  · rename_i ht
    refine Tracks.step (goes rfl hahead (if_pos ht)) ?_
    exact inStep_le (Nat.le_succ _) (call_inStep hself h₁ hn)
  · rename_i ht
    exact inStep_empty rfl hahead (if_neg ht) h₁.done

/-- Behind the name the parser skips an item, and drops what is wrong with it. The span of the
dropped error stays. -/
theorem skip_inStep {α : Type} {f : Unit → ParserM L α} {Q : α → Parser L → Desk → Prop}
    (h : Faces start p rs l)
    (hf : ∀ p' l', Faces start p' rs.tail l' → InStep start (f ()) p' ((gs, rs.tail), l') Q) :
    InStep start (ignoreError (parserExpect .tokenRparen) >>= f) p ((.skip :: gs, rs), l) Q := by
  have hskips : ∀ r p', parserExpect .tokenRparen p = some (r, p') → endless rs.head? = false →
      Faces start p' rs.tail ⟨l.budget, (droppedSpan rs.head?).or l.remark⟩ →
      InStep start (ignoreError (parserExpect .tokenRparen) >>= f) p ((.skip :: gs, rs), l) Q := by
    intro r p' hrun hcomes h'
    refine Tracks.step (goes_skip hcomes) (Tracks.bind (Tracks.of_ok (a := ()) ?_ (hf p' _ h')))
    exact ignoreError_eq_ok.mpr ⟨r, hrun⟩
  -- a token that comes, the closing parenthesis or another one
  have htoken : ∀ t p', parserConsume p = some (.ok t, p') → ahead rs.head? = some t →
      droppedSpan rs.head? = (if t.type = .tokenRparen then none else some t.span) →
      Faces start p' rs.tail l →
      InStep start (ignoreError (parserExpect .tokenRparen) >>= f) p ((.skip :: gs, rs), l) Q := by
    intro t p' hrun hahead hdropped h'
    have hcomes := not_endless_of_ahead hahead
    by_cases ht : t.type = .tokenRparen
    · refine hskips (.ok t) p' ?_ hcomes ⟨h'.reads, h'.free, ?_⟩
      · rw [parserExpect, bind_run_ok hrun, if_neg (not_not_intro ht)]
        rfl
      · rw [hdropped, if_pos ht]
        exact h'.span
    · refine hskips (.error .unexpectedToken) { p' with error := ⟨t.span, .tokenRparen, t.type⟩ }
        ?_ hcomes ⟨h'.reads, h'.free, ?_⟩
      · rw [parserExpect, bind_run_ok hrun, if_pos ht]
        rfl
      · rw [hdropped, if_neg ht]
        rfl
  rcases rs with _ | ⟨⟨code, span⟩ | t, rs⟩
  · obtain ⟨hresult, hnext⟩ := LawfulTokenSource.next_nil h.reads
    exact htoken _ _ (fromLexer_ok _ hresult) rfl rfl ⟨hnext, h.free, h.span⟩
  · obtain ⟨hresult, hnext⟩ := LawfulTokenSource.next_cons h.reads
    cases code with
    | none =>
        -- what is skipped never comes
        have hnone : parserExpect .tokenRparen p = none :=
          bind_run_none (fromLexer_endless _ hresult)
        refine Tracks.of_none (bind_run_none ?_) (Or.inl ⟨⟨_, _, rfl, rfl⟩, rfl⟩)
        rw [ignoreError, hnone]
    | some code =>
        have hrun : parserExpect .tokenRparen p = some (.error code, _) :=
          bind_run_error (fromLexer_error TokenSource.next hresult)
        refine hskips _ _ hrun rfl ⟨hnext, h.free, ?_⟩
        show span.getD p.error.span = (span.or l.remark).getD start
        rw [h.span]
        cases span <;> rfl
  · obtain ⟨hresult, hnext⟩ := LawfulTokenSource.next_cons h.reads
    exact htoken _ _ (fromLexer_ok _ hresult) rfl rfl ⟨hnext, h.free, h.span⟩

/-- `insert` and `singleton` read their goals. The item behind the name is skipped by both sides. -/
theorem insertOrSingleton_inStep {type : NodeType} {t : Token} (h : Faces start p rs l)
    (hahead : ahead rs.head? = some t) (ht : t.type ≠ .tokenEof) :
    InStep start (parseInsertOrSingleton type) p
      ((.tok t.type :: .tok .tokenLparen :: .tok .tokenIdentifier :: .node :: .skip :: gs, rs), l)
      fun _ => Done start gs rs.length := by
  have hlt : rs.tail.length < rs.length := tail_lt hahead ht
  refine inStep_consume h hahead fun p₁ h₁ _ => ?_
  refine Tracks.step (goes_taking rfl hahead (if_pos rfl)) ?_
  refine inStep_tok h₁ (by decide) fun _ p₂ _ h₂ hlt₂ => ?_
  refine inStep_tok h₂ (by decide) fun name p₃ _ h₃ hlt₃ => ?_
  refine inStep_addNode h₃ fun id p₄ l₄ h₄ => inStep_setNode h₄ fun p₅ h₅ _ => ?_
  refine skip_inStep h₅ fun p₆ l₆ h₆ => Tracks.pure ⟨_, l₆, rfl, h₆, ?_⟩
  rw [List.length_tail]
  omega

/-- A literal is read with the choice for it, and its node is paid for. -/
theorem literal_inStep {t : Token} (h : Faces start p rs l) (hahead : ahead rs.head? = some t)
    (ht : t.type = .tokenLiteral) :
    InStep start parseLiteral p ((.atom :: gs, rs), l) fun _ => Done start gs rs.length := by
  have hlt : rs.tail.length < rs.length := tail_lt hahead (by rw [ht]; decide)
  have htable : Goal.table .atom t = some (true, [.node]) := atomTable_literal ht
  refine inStep_consume h hahead fun p₁ h₁ _ => ?_
  refine Tracks.step (goes_choosing rfl hahead htable) (inStep_addNode h₁ fun id p₂ l₂ h₂ => ?_)
  exact inStep_setNode h₂ fun p₃ h₃ _ => Tracks.pure ⟨_, l₂, rfl, h₃, hlt⟩

/-- A designator with the call behind it. -/
theorem chainCall_inStep (hself : CalleesInStep start n self) {d : Designator} {node : NodeId}
    (h : Faces start p rs l) (hn : rs.length < n)
    (hkind : (p.ast.nodes node).kind.designator = some d) :
    InStep start (tryParseMemberChain n node >>= tryParseCall n self) p
      ((.chain d :: .callOpt :: gs, rs), l) fun _ => Done start gs (rs.length + 1) := by
  refine inStep_bind (tryMemberChain_inStep h hn hkind) fun _ p₁ rs₁ l₁ h₁ hlt => ?_
  exact inStep_le (by omega) (tryCall_inStep hself h₁ (by omega))

/-- `nulang__parse_atom` reads the goal `.atom`, by the type of the token ahead. -/
theorem atom_inStep (hself : CalleesInStep start n self) (h : Faces start p rs l)
    (hn : rs.length ≤ n) :
    InStep start (parseAtom n self) p ((.atom :: gs, rs), l) fun _ => Done start gs rs.length := by
  refine inStep_peek h (blocked_of_error rfl) fun t p₁ hahead h₁ _ => ?_
  split
  · rename_i ht
    refine Tracks.step (goes rfl hahead (atomTable_identifier ht)) ?_
    refine Tracks.bind ((symbol_inStep h₁).mono ?_)
    rintro node p₂ _ ⟨rs₂, l₂, rfl, h₂, hlt, hkind⟩
    exact inStep_le hlt (chainCall_inStep hself h₂ (by omega) hkind)
  · rename_i ht
    refine Tracks.step (goes rfl hahead (atomTable_insert ht)) ?_
    rw [← ht]
    exact insertOrSingleton_inStep h₁ hahead (by rw [ht]; decide)
  · rename_i ht
    refine Tracks.step (goes rfl hahead (atomTable_singleton ht)) ?_
    rw [← ht]
    exact insertOrSingleton_inStep h₁ hahead (by rw [ht]; decide)
  · rename_i ht
    refine Tracks.step (goes rfl hahead (atomTable_primitive ht)) ?_
    -- the goal keeps the primitive, which decides on the members
    refine Tracks.bind ((constructor_inStep h₁ hahead).mono ?_)
    rintro node p₂ _ ⟨rs₂, l₂, rfl, h₂, hlt, hkind⟩
    exact inStep_le hlt (chainCall_inStep hself h₂ (by omega) hkind)
  · rename_i ht
    exact literal_inStep h₁ hahead ht
  · rename_i hident hinsert hsingleton hprimitive hliteral
    -- no atom begins with another token
    refine inStep_report (blocked_of_table rfl hahead ?_) hahead (by rintro _ ⟨⟩) rfl rfl
    show atomTable t = none
    unfold atomTable
    split <;> first | rfl | contradiction

/-- `nulang__parse_primary` reads the goal `.primary`, by the type of the token ahead. -/
theorem primary_inStep (hself : CalleesInStep start n self) (h : Faces start p rs l)
    (hn : rs.length ≤ n) :
    InStep start (parsePrimary n self) p ((.primary :: gs, rs), l)
      fun _ => Done start gs rs.length := by
  refine inStep_peek h (blocked_of_error rfl) fun t p₁ hahead h₁ _ => ?_
  by_cases hparen : t.type = .tokenLparen
  · rw [if_pos hparen]
    have hlt : rs.tail.length < rs.length := tail_lt hahead (by rw [hparen]; decide)
    refine Tracks.step (goes_tok rfl hahead hparen (if_pos hparen)) ?_
    refine inStep_consume h₁ hahead fun p₂ h₂ _ => ?_
    refine inStep_bind (hself.expr h₂ (by omega)) fun _ p₃ rs₃ l₃ h₃ hlt₃ => ?_
    refine inStep_tok h₃ (by decide) fun _ p₄ _ h₄ hlt₄ => Tracks.pure ?_
    exact ⟨_, l₃, rfl, h₄, by omega⟩
  rw [if_neg hparen]
  by_cases hunop : isUnop t.type = true
  · rw [if_pos hunop]
    have hlt : rs.tail.length < rs.length := tail_lt hahead fun heof => by
      rw [heof] at hunop
      cases hunop
    refine Tracks.step (goes_tok rfl hahead rfl ((if_neg hparen).trans (if_pos hunop))) ?_
    refine inStep_consume h₁ hahead fun p₂ h₂ _ => ?_
    refine inStep_bind (hself.primary h₂ (by omega)) fun _ p₃ rs₃ l₃ h₃ hlt₃ => ?_
    refine inStep_addNode h₃ fun id p₄ l₄ h₄ => inStep_setNode h₄ fun p₅ h₅ _ => ?_
    exact inStep_append h₅ fun p₆ h₆ _ => Tracks.pure ⟨_, l₄, rfl, h₆, by omega⟩
  rw [if_neg hunop]
  -- a binary operator cannot begin an operand: the table has no entry, as the parser reports
  by_cases hbinop : isBinop t.type = true
  · rw [if_pos hbinop]
    have htable : Goal.table .primary t = none :=
      (if_neg hparen).trans ((if_neg hunop).trans (if_pos hbinop))
    exact inStep_report (blocked_of_table rfl hahead htable) hahead (by rintro _ ⟨⟩) rfl rfl
  · rw [if_neg hbinop]
    have htable : Goal.table .primary t = expand [.atom] :=
      (if_neg hparen).trans ((if_neg hunop).trans (if_neg hbinop))
    exact Tracks.step (goes rfl hahead htable) (atom_inStep hself h₁ hn)

/-- The loop over the operators reads the goal `.climb`. The induction is on its fuel. -/
theorem climb_inStep (hself : CalleesInStep start n self) {min : Nat} : ∀ (m : Nat) {p : Parser L}
    {rs : List LexResult} {l : Ledger Span} {lhs : NodeId}, Faces start p rs l → rs.length < m →
    rs.length ≤ n →
    InStep start (loop (parseBinop self min) m lhs) p ((.climb min :: gs, rs), l)
      fun _ => Done start gs (rs.length + 1) := by
  intro m
  induction m with
  | zero => exact fun _ hm => absurd hm (Nat.not_lt_zero _)
  | succ m ih =>
      intro p rs l lhs h hm hn
      refine Tracks.loop_succ (inStep_peek h (blocked_of_error rfl) fun t p₁ hahead h₁ _ => ?_)
      by_cases hbinop : isBinop t.type = true
      · rw [if_pos hbinop]
        by_cases hlow : binopPrecedence t.type < min
        · -- an operator that binds less ends the loop
          rw [if_pos hlow]
          refine inStep_empty rfl hahead (if_neg fun h => ?_) h₁.done
          omega
        · rw [if_neg hlow]
          have hlt : rs.tail.length < rs.length := tail_lt hahead fun heof => by
            rw [heof] at hbinop
            cases hbinop
          have hbinds : isBinop t.type = true ∧ min ≤ binopPrecedence t.type := ⟨hbinop, by omega⟩
          refine Tracks.step (goes_tok rfl hahead rfl (if_pos hbinds)) ?_
          refine inStep_consume h₁ hahead fun p₂ h₂ _ => ?_
          refine inStep_bind (hself.expr h₂ (by omega)) fun rhs p₃ rs₃ l₃ h₃ hlt₃ => ?_
          refine inStep_addNode h₃ fun id p₄ l₄ h₄ => inStep_setNode h₄ fun p₅ h₅ _ => ?_
          refine inStep_append h₅ fun p₆ h₆ _ => inStep_append h₆ fun p₇ h₇ _ => ?_
          -- the loop goes on with the new left operand and fewer results
          exact Tracks.pure (inStep_le (by omega) (ih h₇ (by omega) (by omega)))
      · rw [if_neg hbinop]
        exact inStep_empty rfl hahead (if_neg fun h => hbinop h.1) h₁.done

/-- `nulang__parse_expr` reads the goal `.expr`. -/
theorem expr_inStep (hself : CalleesInStep start n self) {min : Nat} (h : Faces start p rs l)
    (hn : rs.length ≤ n) :
    InStep start (parseExpr n self min) p ((.expr min :: gs, rs), l)
      fun _ => Done start gs rs.length := by
  refine inStep_always rfl rfl (inStep_bind (primary_inStep hself h hn) ?_)
  intro _ p₁ rs₁ l₁ h₁ hlt
  exact inStep_le hlt (climb_inStep hself n h₁ (by omega) (by omega))

end

/-! ### Statements -/

section
variable {self : Productions L} {n : Nat} {p : Parser L} {gs : List Goal} {rs : List LexResult}
  {l : Ledger Span}

/-- The node of a body is paid for. -/
theorem inStep_compound {α : Type} {parent : NodeId} {f : NodeId → ParserM L α}
    {Q : α → Parser L → Desk → Prop} (h : Faces start p rs l)
    (hf : ∀ id p' l', Faces start p' rs l' → InStep start (f id) p' ((gs, rs), l') Q) :
    InStep start (addCompound parent >>= f) p ((.node :: gs, rs), l) Q := by
  show InStep start ((parserAddNode >>= _) >>= f) p ((.node :: gs, rs), l) Q
  rw [Prog.bind_assoc]
  refine inStep_addNode h fun id p₁ l₁ h₁ => ?_
  refine Tracks.bind (Tracks.bind (Tracks.gets (inStep_setNode h₁ fun p₂ h₂ _ => ?_)))
  exact inStep_append h₂ fun p₃ h₃ _ => Tracks.pure (hf id p₃ l₁ h₃)

/-- The statements of a body. An idle token keeps the loop where it is for ever. -/
theorem body_inStep (hself : CalleesInStep start n self) {stop : List TokenType} {parent : NodeId} :
    ∀ (m : Nat) {p : Parser L} {rs : List LexResult} {l : Ledger Span}, Faces start p rs l →
    rs.length < m → rs.length < n →
    InStep start (loop (parseBodyStmt self stop parent) m ()) p ((.body stop :: gs, rs), l)
      fun _ => Done start gs (rs.length + 1) := by
  intro m
  induction m with
  | zero => exact fun _ hm => absurd hm (Nat.not_lt_zero _)
  | succ m ih =>
      intro p rs l h hm hn
      by_cases hidle : ∃ t, lookahead rs = some t ∧ t ∈ idleTokens ∧ t ∉ stop
      · obtain ⟨t, ht, hidle, hstop⟩ := hidle
        obtain ⟨token, hahead, rfl⟩ := exists_ahead ht
        have hat : At p rs p.ast := ⟨h.reads, rfl⟩
        refine Tracks.step (goes rfl hahead (if_neg hstop)) ?_
        refine Tracks.of_none (bodyLoop_idle hself.idle ht hidle hstop (m + 1) hat) ?_
        exact Or.inr ⟨_, _, rfl, ht, hidle⟩
      refine Tracks.loop_succ (inStep_peek h (blocked_of_error rfl) fun t p₁ hahead h₁ _ => ?_)
      by_cases hstop : t.type ∈ stop
      · rw [if_pos hstop]
        exact inStep_empty rfl hahead (if_pos hstop) h₁.done
      rw [if_neg hstop]
      refine Tracks.step (goes rfl hahead (if_neg hstop)) (inStep_bind (hself.stmt h₁ hn ?_) ?_)
      · intro t' ht' hmem
        obtain rfl := lookahead_inj ht' (lookahead_of_ahead hahead)
        exact hidle ⟨_, ht', hmem, hstop⟩
      · intro stmt p₂ rs₂ l₂ h₂ hlt
        refine Tracks.bind (Tracks.gets (inStep_append h₂ fun p₃ h₃ _ => Tracks.pure ?_))
        exact inStep_le (by omega) (ih h₃ (by omega) (by omega))

/-- The body of a branch is read behind its node. -/
theorem ifBody_inStep (hself : CalleesInStep start n self) {node : NodeId}
    (h : Faces start p rs l) (hn : rs.length < n) :
    InStep start (parseAndAppendIfBody n self node) p ((.node :: .body ifBodyStop :: gs, rs), l)
      fun _ => Done start gs (rs.length + 1) :=
  inStep_compound h fun _ _ _ h₁ => body_inStep hself n h₁ hn hn

/-- A condition with its body reads the goal `.branch`. -/
theorem branch_inStep (hself : CalleesInStep start n self) {node : NodeId}
    (h : Faces start p rs l) (hn : rs.length < n) :
    InStep start (parseBranch n self node) p ((.branch :: gs, rs), l)
      fun _ => Done start gs rs.length := by
  refine inStep_always rfl rfl (inStep_bind (hself.expr h hn) fun _ p₁ rs₁ l₁ h₁ hlt₁ => ?_)
  refine inStep_append h₁ fun p₂ h₂ _ => inStep_tok h₂ (by decide) fun _ p₃ _ h₃ hlt₃ => ?_
  exact inStep_le (by omega) (ifBody_inStep hself h₃ (by omega))

/-- The loop over the further branches reads the goal `.elifs`. The induction is on its fuel. -/
theorem elifs_inStep (hself : CalleesInStep start n self) {node : NodeId} : ∀ (m : Nat)
    {p : Parser L} {rs : List LexResult} {l : Ledger Span}, Faces start p rs l →
    rs.length < m → rs.length ≤ n →
    InStep start (loop (parseElif n self node) m ()) p ((.elifs :: gs, rs), l)
      fun _ => Done start gs (rs.length + 1) := by
  intro m
  induction m with
  | zero => exact fun _ hm => absurd hm (Nat.not_lt_zero _)
  | succ m ih =>
      intro p rs l h hm hn
      refine Tracks.loop_succ (inStep_accept rfl h (by decide) (fun t p₁ hahead ht h₁ hlt => ?_) ?_)
      · refine Tracks.step (goes_tok rfl hahead ht (if_pos ht)) ?_
        refine inStep_bind (branch_inStep hself h₁ (by omega)) fun _ p₂ rs₂ l₂ h₂ hlt₂ => ?_
        exact Tracks.pure (inStep_le (by omega) (ih h₂ (by omega) (by omega)))
      · intro t p₁ hahead ht h₁
        exact inStep_empty rfl hahead (if_neg ht) h₁.done

/-- The last branch reads the goal `.elseOpt`. -/
theorem else_inStep (hself : CalleesInStep start n self) {node : NodeId} (h : Faces start p rs l)
    (hn : rs.length ≤ n) :
    InStep start (parseElse n self node) p ((.elseOpt :: gs, rs), l)
      fun _ => Done start gs (rs.length + 1) := by
  refine inStep_accept rfl h (by decide) (fun t p₁ hahead ht h₁ hlt => ?_) ?_
  · refine Tracks.step (goes_tok rfl hahead ht (if_pos ht)) ?_
    exact inStep_le (by omega) (ifBody_inStep hself h₁ (by omega))
  · intro t p₁ hahead ht h₁
    exact inStep_empty rfl hahead (if_neg ht) h₁.done

/-- A conditional reads the goals that its first token is replaced by. -/
theorem ifStmt_inStep (hself : CalleesInStep start n self) (h : Faces start p rs l)
    (hn : rs.length ≤ n) :
    InStep start (parseIfStmt n self) p
      ((.tok .tokenIf :: .node :: .branch :: .elifs :: .elseOpt :: .tok .tokenEnd :: gs, rs), l)
      fun _ => Done start gs rs.length := by
  refine inStep_tok h (by decide) fun _ p₁ _ h₁ hlt₁ => inStep_addNode h₁ fun node p₂ l₂ h₂ => ?_
  refine inStep_setNode h₂ fun p₃ h₃ _ => ?_
  refine inStep_bind (branch_inStep hself h₃ (by omega)) fun _ p₄ rs₄ l₄ h₄ hlt₄ => ?_
  refine inStep_bind (elifs_inStep hself n h₄ (by omega) (by omega)) ?_
  intro _ p₅ rs₅ l₅ h₅ hlt₅
  refine inStep_bind (else_inStep hself h₅ (by omega)) fun _ p₆ rs₆ l₆ h₆ hlt₆ => ?_
  refine inStep_tok h₆ (by decide) fun _ p₇ _ h₇ hlt₇ => Tracks.pure ?_
  exact ⟨_, l₆, rfl, h₇, by omega⟩

/-- An assignment reads the goals behind its place. -/
theorem assign_inStep (hself : CalleesInStep start n self) {ident : NodeId}
    (h : Faces start p rs l) (hn : rs.length ≤ n) :
    InStep start (parseAssignStmt self ident) p
      ((.tok .tokenAssign :: .expr 0 :: .node :: gs, rs), l) fun _ => Done start gs rs.length := by
  refine inStep_tok h (by decide) fun _ p₁ _ h₁ hlt₁ => ?_
  refine inStep_bind (hself.expr h₁ (by omega)) fun _ p₂ rs₂ l₂ h₂ hlt₂ => ?_
  refine inStep_addNode h₂ fun node p₃ l₃ h₃ => inStep_setNode h₃ fun p₄ h₄ _ => ?_
  refine inStep_append h₄ fun p₅ h₅ _ => inStep_append h₅ fun p₆ h₆ _ => Tracks.pure ?_
  exact ⟨_, l₃, rfl, h₆, by omega⟩

/-- A loop reads the goals that its first token is replaced by. -/
theorem while_inStep (hself : CalleesInStep start n self) (h : Faces start p rs l)
    (hn : rs.length ≤ n) :
    InStep start (parseWhileStmt n self) p
      ((.tok .tokenWhile :: .expr 0 :: .node :: .tok .tokenDo :: .node :: .body endStop ::
        .tok .tokenEnd :: gs, rs), l) fun _ => Done start gs rs.length := by
  refine inStep_tok h (by decide) fun _ p₁ _ h₁ hlt₁ => ?_
  refine inStep_bind (hself.expr h₁ (by omega)) fun _ p₂ rs₂ l₂ h₂ hlt₂ => ?_
  refine inStep_addNode h₂ fun node p₃ l₃ h₃ => inStep_setNode h₃ fun p₄ h₄ _ => ?_
  refine inStep_append h₄ fun p₅ h₅ _ => inStep_tok h₅ (by decide) fun _ p₆ _ h₆ hlt₆ => ?_
  refine inStep_compound h₆ fun compound p₇ l₇ h₇ => ?_
  refine inStep_bind (body_inStep hself n h₇ (by omega) (by omega)) ?_
  intro _ p₈ rs₈ l₈ h₈ hlt₈
  refine inStep_tok h₈ (by decide) fun _ p₉ _ h₉ hlt₉ => Tracks.pure ?_
  exact ⟨_, l₈, rfl, h₉, by omega⟩

/-- The loop over the parameters reads the goal `.params`. The induction is on its fuel. -/
theorem params_inStep {node : NodeId} : ∀ (m : Nat) {p : Parser L} {rs : List LexResult}
    {l : Ledger Span}, Faces start p rs l → rs.length < m →
    InStep start (loop (parseArgdecl node) m ()) p ((.params :: gs, rs), l)
      fun _ => Done start gs rs.length := by
  intro m
  induction m with
  | zero => exact fun _ hm => absurd hm (Nat.not_lt_zero _)
  | succ m ih =>
      intro p rs l h hm
      refine Tracks.loop_succ (inStep_always rfl rfl (inStep_tok h (by decide) ?_))
      intro _ p₁ _ h₁ hlt₁
      refine inStep_bind (vartype_inStep h₁) fun _ p₂ rs₂ l₂ h₂ hlt₂ => ?_
      refine inStep_addNode h₂ fun arg p₃ l₃ h₃ => inStep_setNode h₃ fun p₄ h₄ _ => ?_
      refine inStep_append h₄ fun p₅ h₅ _ => ?_
      refine inStep_accept rfl h₅ (by decide) (fun t p₆ hahead ht h₆ hlt₆ => ?_) ?_
      · -- behind a comma one more parameter is read, so the loop has fewer results
        refine Tracks.step (goes_tok rfl hahead ht (if_pos ht)) (Tracks.pure ?_)
        exact inStep_le (by omega) (ih h₆ (by omega))
      · intro t p₆ hahead ht h₆
        exact inStep_empty rfl hahead (if_neg ht) (h₆.done.mono (by omega))

/-- The parameters of a function read the goal `.paramsOpt`. -/
theorem paramsOpt_inStep {node : NodeId} (h : Faces start p rs l) (hn : rs.length < n) :
    InStep start (parseArgdecls n node) p ((.paramsOpt :: gs, rs), l)
      fun _ => Done start gs (rs.length + 1) := by
  refine inStep_peek h (blocked_of_error rfl) fun t p₁ hahead h₁ _ => ?_
  by_cases ht : t.type = .tokenRparen
  · rw [if_neg (not_not_intro ht)]
    exact inStep_empty rfl hahead (if_pos ht) h₁.done
  · rw [if_pos ht]
    refine Tracks.step (goes rfl hahead (if_neg ht)) ?_
    exact inStep_le (Nat.le_succ _) (params_inStep n h₁ hn)

/-- The type of a function reads the goal `.typeOpt`. -/
theorem returnType_inStep {node : NodeId} (h : Faces start p rs l) :
    InStep start (parseReturnType node) p ((.typeOpt :: gs, rs), l)
      fun _ => Done start gs (rs.length + 1) := by
  refine inStep_bind (tryVartype_inStep h) fun type p₁ rs₁ l₁ h₁ hlt => ?_
  split
  · exact Tracks.modify ⟨rs₁, l₁, rfl, ⟨h₁.reads, h₁.free, h₁.span⟩, hlt⟩
  · exact Tracks.pure ⟨rs₁, l₁, rfl, h₁, hlt⟩

/-- A function reads the goals that its first token is replaced by. -/
theorem fundecl_inStep (hself : CalleesInStep start n self) {exported : Bool}
    (h : Faces start p rs l) (hn : rs.length ≤ n) :
    InStep start (parseFundecl n self exported) p
      ((.tok .tokenFunction :: .tok .tokenIdentifier :: .node :: .tok .tokenLparen :: .paramsOpt ::
        .tok .tokenRparen :: .typeOpt :: .node :: .body endStop :: .tok .tokenEnd :: gs, rs), l)
      fun _ => Done start gs rs.length := by
  refine inStep_tok h (by decide) fun _ p₁ _ h₁ hlt₁ => ?_
  refine inStep_tok h₁ (by decide) fun _ p₂ _ h₂ hlt₂ => ?_
  refine inStep_addNode h₂ fun node p₃ l₃ h₃ => inStep_setNode h₃ fun p₄ h₄ _ => ?_
  refine inStep_tok h₄ (by decide) fun _ p₅ _ h₅ hlt₅ => ?_
  refine inStep_bind (paramsOpt_inStep h₅ (by omega)) fun _ p₆ rs₆ l₆ h₆ hlt₆ => ?_
  refine inStep_tok h₆ (by decide) fun _ p₇ _ h₇ hlt₇ => ?_
  refine inStep_bind (returnType_inStep h₇) fun _ p₈ rs₈ l₈ h₈ hlt₈ => ?_
  refine inStep_compound h₈ fun compound p₉ l₉ h₉ => ?_
  refine inStep_bind (body_inStep hself n h₉ (by omega) (by omega)) fun _ q rs' l' hq hlt' => ?_
  refine inStep_tok hq (by decide) fun _ q' _ hq' hlt'' => Tracks.pure ?_
  exact ⟨_, l', rfl, hq', by omega⟩

/-- A declaration reads the goals that its first token is replaced by. -/
theorem vardecl_inStep (hself : CalleesInStep start n self) (h : Faces start p rs l)
    (hn : rs.length ≤ n) :
    InStep start (parseVardecl self) p
      ((.tok .tokenLet :: .tok .tokenIdentifier :: .typeOpt :: .tok .tokenAssign :: .expr 0 ::
        .node :: gs, rs), l) fun _ => Done start gs rs.length := by
  refine inStep_tok h (by decide) fun _ p₁ _ h₁ hlt₁ => ?_
  refine inStep_tok h₁ (by decide) fun _ p₂ _ h₂ hlt₂ => ?_
  refine inStep_bind (tryVartype_inStep h₂) fun _ p₃ rs₃ l₃ h₃ hlt₃ => ?_
  refine inStep_tok h₃ (by decide) fun _ p₄ _ h₄ hlt₄ => ?_
  refine inStep_bind (hself.expr h₄ (by omega)) fun _ p₅ rs₅ l₅ h₅ hlt₅ => ?_
  refine inStep_addNode h₅ fun node p₆ l₆ h₆ => inStep_setNode h₆ fun p₇ h₇ _ => ?_
  exact inStep_append h₇ fun p₈ h₈ _ => Tracks.pure ⟨_, l₆, rfl, h₈, by omega⟩

/-- A return reads the goals that its first token is replaced by. -/
theorem return_inStep (hself : CalleesInStep start n self) (h : Faces start p rs l)
    (hn : rs.length ≤ n) :
    InStep start (parseReturnStmt self) p ((.tok .tokenReturn :: .expr 0 :: .node :: gs, rs), l)
      fun _ => Done start gs rs.length := by
  refine inStep_tok h (by decide) fun _ p₁ _ h₁ hlt₁ => ?_
  refine inStep_bind (hself.expr h₁ (by omega)) fun _ p₂ rs₂ l₂ h₂ hlt₂ => ?_
  refine inStep_addNode h₂ fun node p₃ l₃ h₃ => inStep_setNode h₃ fun p₄ h₄ _ => ?_
  exact inStep_append h₄ fun p₅ h₅ _ => Tracks.pure ⟨_, l₃, rfl, h₅, by omega⟩

/-- A statement that begins with a name reads its goals: behind the chain comes an assignment or a
call. -/
theorem ident_inStep (hself : CalleesInStep start n self) (h : Faces start p rs l)
    (hn : rs.length ≤ n) :
    InStep start (parseIdentStmt n self) p
      ((.tok .tokenIdentifier :: .node :: .chain .place :: .identRest :: gs, rs), l)
      fun _ => Done start gs rs.length := by
  refine Tracks.bind ((symbol_inStep h).mono ?_)
  rintro ident p₁ _ ⟨rs₁, l₁, rfl, h₁, hlt₁, hkind⟩
  refine inStep_bind (tryMemberChain_inStep h₁ (by omega) hkind) fun ident p₂ rs₂ l₂ h₂ hlt₂ => ?_
  refine inStep_peek h₂ (blocked_of_error rfl) fun t p₃ hahead h₃ _ => ?_
  by_cases hassign : t.type = .tokenAssign
  · rw [if_pos hassign]
    refine Tracks.step (goes rfl hahead (if_pos hassign)) ?_
    exact inStep_le (by omega) (assign_inStep hself h₃ (by omega))
  rw [if_neg hassign]
  by_cases hparen : t.type = .tokenLparen
  · rw [if_pos hparen]
    have htable : Goal.table .identRest t = expand [.call] := (if_neg hassign).trans (if_pos hparen)
    refine Tracks.step (goes rfl hahead htable) ?_
    exact inStep_le (by omega) (call_inStep hself h₃ (by omega))
  · -- what follows a name is neither an assignment nor a call
    rw [if_neg hparen]
    have htable : Goal.table .identRest t = none := (if_neg hassign).trans (if_neg hparen)
    exact inStep_report (blocked_of_table rfl hahead htable) hahead (by rintro _ ⟨⟩) rfl rfl

/-- `nulang__parse_stmt` reads the goal `.stmt`, unless the statement begins with an idle token. -/
theorem stmt_inStep (hself : CalleesInStep start n self) (h : Faces start p rs l)
    (hn : rs.length ≤ n) (hidle : ∀ t, lookahead rs = some t → t ∉ idleTokens) :
    InStep start (parseStmt n self) p ((.stmt :: gs, rs), l) fun _ => Done start gs rs.length := by
  refine inStep_peek h (blocked_of_error rfl) fun t p₁ hahead h₁ _ => ?_
  have hnot : t.type ∉ idleTokens := hidle t.type (lookahead_of_ahead hahead)
  split
  · rename_i ht
    refine Tracks.step (goes rfl hahead (stmtTable_let ht)) ?_
    exact Tracks.map (vardecl_inStep hself h₁ hn)
  · rename_i ht
    -- the idle tokens are excluded here, since the parser stores nothing for them
    exact absurd (by rw [ht]; decide) hnot
  · rename_i ht
    refine Tracks.step (goes rfl hahead (stmtTable_function ht)) ?_
    exact Tracks.map (fundecl_inStep hself h₁ hn)
  · rename_i ht
    refine Tracks.step (goes rfl hahead (stmtTable_return ht)) ?_
    exact Tracks.map (return_inStep hself h₁ hn)
  · rename_i ht
    refine Tracks.step (goes rfl hahead (stmtTable_if ht)) ?_
    exact Tracks.map (ifStmt_inStep hself h₁ hn)
  · rename_i ht
    exact absurd (by rw [ht]; decide) hnot
  · rename_i ht
    refine Tracks.step (goes rfl hahead (stmtTable_while ht)) ?_
    exact Tracks.map (while_inStep hself h₁ hn)
  · rename_i ht
    exact absurd (by rw [ht]; decide) hnot
  · rename_i ht
    exact absurd (by rw [ht]; decide) hnot
  · rename_i ht
    refine Tracks.step (goes rfl hahead (stmtTable_identifier ht)) ?_
    exact Tracks.map (ident_inStep hself h₁ hn)
  · -- no other token begins a statement
    refine inStep_report (blocked_of_table rfl hahead ?_) hahead (fun _ _ => hnot) rfl rfl
    show stmtTable t = none
    unfold stmtTable
    split <;> first | rfl | contradiction

/-- The productions keep in step when they have more fuel than there are results. -/
theorem productions_inStep : ∀ n : Nat, CalleesInStep start n (productions n : Productions L) := by
  intro n
  induction n with
  | zero =>
      exact ⟨fun _ hn => absurd hn (Nat.not_lt_zero _), fun _ hn => absurd hn (Nat.not_lt_zero _),
        fun _ hn => absurd hn (Nat.not_lt_zero _), (correct 0).idle⟩
  | succ n ih =>
      exact ⟨fun h hn => expr_inStep ih h (Nat.lt_succ_iff.mp hn),
        fun h hn => primary_inStep ih h (Nat.lt_succ_iff.mp hn),
        fun h hn hidle => stmt_inStep ih h (Nat.lt_succ_iff.mp hn) hidle, (correct (n + 1)).idle⟩

end

/-! ### The module -/

section
variable {p : Parser L} {rs : List LexResult} {l : Ledger Span}

/-- Without a header token the first loop of `nulang__parse` reads nothing. -/
theorem header_inStep {n : Nat} (h : Faces start p rs l)
    (hheader : ∀ t, lookahead rs = some t → t ∉ headerTokens) :
    InStep start (loop parseHeader (n + 1) ()) p (([.body moduleStop], rs), l)
      fun _ p' d => d = (([.body moduleStop], rs), l) ∧ Faces start p' rs l := by
  refine Tracks.loop_succ (inStep_peek h (blocked_of_error rfl) fun t p₁ hahead h₁ _ => ?_)
  have hnot : t.type ∉ headerTokens := hheader t.type (lookahead_of_ahead hahead)
  simp only [headerTokens, List.mem_cons, List.not_mem_nil, or_false, not_or] at hnot
  rw [if_neg hnot.1, if_neg hnot.2]
  exact Tracks.pure ⟨rfl, h₁⟩

/-- The statements of the module, up to the end of the source. -/
theorem moduleStmts_inStep {self : Productions L} {n : Nat} (hself : CalleesInStep start n self) :
    ∀ (m : Nat) {p : Parser L} {rs : List LexResult} {l : Ledger Span} {stmt : NodeId},
    Faces start p rs l → rs.length < m → rs.length < n →
    InStep start (loop (parseModuleStmt self) m stmt) p (([.body moduleStop], rs), l)
      fun _ p' d => ∃ l', d = (([], []), l') ∧ Faces start p' [] l' := by
  intro m
  induction m with
  | zero => exact fun _ hm => absurd hm (Nat.not_lt_zero _)
  | succ m ih =>
      intro p rs l stmt h hm hn
      by_cases hidle : ∃ t, lookahead rs = some t ∧ t ∈ idleTokens
      · obtain ⟨t, ht, hidle⟩ := hidle
        obtain ⟨token, hahead, rfl⟩ := exists_ahead ht
        have hat : At p rs p.ast := ⟨h.reads, rfl⟩
        have hstop : token.type ∉ moduleStop := fun hmem => by
          rw [List.mem_singleton.mp hmem] at hidle
          exact absurd hidle (by decide)
        refine Tracks.step (goes rfl hahead (if_neg hstop)) ?_
        refine Tracks.of_none (moduleLoop_idle hself.idle ht hidle (m + 1) stmt hat) ?_
        exact Or.inr ⟨_, _, rfl, ht, hidle⟩
      refine Tracks.loop_succ (inStep_peek h (blocked_of_error rfl) fun t p₁ hahead h₁ _ => ?_)
      by_cases heof : t.type = .tokenEof
      · rw [if_pos heof]
        -- behind the last statement nothing is left
        have hat : At p₁ rs p₁.ast := ⟨h₁.reads, rfl⟩
        obtain rfl := hat.eq_nil (by rw [lookahead_of_ahead hahead, heof])
        have hstop : t.type ∈ moduleStop := List.mem_singleton.mpr heof
        exact Tracks.step (goes rfl hahead (if_pos hstop)) (Tracks.pure ⟨l, rfl, h₁⟩)
      rw [if_neg heof]
      have hstop : t.type ∉ moduleStop := fun hmem => heof (List.mem_singleton.mp hmem)
      refine Tracks.step (goes rfl hahead (if_neg hstop)) (inStep_bind (hself.stmt h₁ hn ?_) ?_)
      · exact fun t' ht' hmem => hidle ⟨t', ht', hmem⟩
      · intro node p₂ rs₂ l₂ h₂ hlt
        refine Tracks.bind (Tracks.gets (inStep_append h₂ fun p₃ h₃ _ => Tracks.pure ?_))
        exact ih h₃ (by omega) (by omega)

/-- The whole parse, on a source without a header token at its start. -/
theorem parse_inStep {fuel : Nat} (h : Faces start p rs l) (hfuel : rs.length < fuel)
    (hheader : ∀ t, lookahead rs = some t → t ∉ headerTokens) :
    InStep start (parse fuel) p (([.body moduleStop], rs), l) fun _ _ d => d.1 = ([], []) := by
  obtain ⟨n, rfl⟩ : ∃ n, fuel = n + 1 := ⟨fuel - 1, by omega⟩
  refine Tracks.bind ((header_inStep h hheader).mono ?_)
  rintro _ p₁ _ ⟨rfl, h₁⟩
  refine Tracks.bind (Tracks.gets (Tracks.bind ?_))
  refine (moduleStmts_inStep (productions_inStep (n + 1)) (n + 1) h₁ hfuel hfuel).mono ?_
  rintro _ p₂ _ ⟨l₂, rfl, h₂⟩
  obtain ⟨hresult, -⟩ := LawfulTokenSource.next_nil h₂.reads
  have hexpect : parserExpect .tokenEof p₂ =
      some (.ok Token.eof, { p₂ with lexer := (TokenSource.next p₂.lexer).2 }) := by
    rw [parserExpect, parserConsume, bind_run_ok (fromLexer_ok _ hresult)]
    rfl
  exact Tracks.bind (Tracks.of_ok hexpect (Tracks.pure rfl))

end

end Nucleus.Proofs
