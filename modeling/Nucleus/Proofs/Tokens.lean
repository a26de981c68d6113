import Nucleus.Spec.Grammar

/-!
# `Nucleus.Proofs.Tokens`: the parser's primitive steps

`At p rs a`: the parser `p` still reads the results `rs` and has the arena `a`. Every primitive
step of the parser (peek, consume, expect, accept, and the stores into the arena) has a rule for
what it establishes if it succeeds (`…_spec`).
-/

set_option autoImplicit false

namespace Nucleus.Proofs

open Nucleus.Lib
open Nucleus.Lib.Prog
open Nucleus.Lang
open Nucleus.Spec

section
variable {L : Type}

/-- A call that succeeds returns its token and leaves the rest of the parser as it is. -/
theorem fromLexer_ok (call : L → LexResult × L) {p : Parser L} {tok : Token}
    (h : (call p.lexer).1 = .ok tok) :
    fromLexer call p = some (.ok tok, { p with lexer := (call p.lexer).2 }) := by
  unfold fromLexer
  rcases hc : call p.lexer with ⟨r, l'⟩
  rw [hc] at h
  cases h
  rfl

/-- A call that fails stores the span of its error, if it has one. -/
theorem fromLexer_error (call : L → LexResult × L) {p : Parser L} {code : Error}
    {span : Option Span} (h : (call p.lexer).1 = .error ⟨some code, span⟩) :
    fromLexer call p = some (.error code,
      { p with
          lexer := (call p.lexer).2
          error := { p.error with span := span.getD p.error.span } }) := by
  unfold fromLexer
  rcases hc : call p.lexer with ⟨r, l'⟩
  rw [hc] at h
  cases h
  rfl

/-- A call that never returns. -/
theorem fromLexer_endless (call : L → LexResult × L) {p : Parser L} {span : Option Span}
    (h : (call p.lexer).1 = .error ⟨none, span⟩) : fromLexer call p = none := by
  unfold fromLexer
  rcases hc : call p.lexer with ⟨r, l'⟩
  rw [hc] at h
  cases h
  rfl

/-- A call that fails returns no token. -/
theorem fromLexer_spec_error (call : L → LexResult × L) {p : Parser L} {e : LexError}
    (h : (call p.lexer).1 = .error e) {Q : Token → Parser L → Prop} :
    Spec (fromLexer call) p Q := by
  obtain ⟨_ | code, span⟩ := e
  · exact Spec.of_none (fromLexer_endless call h)
  · exact Spec.of_error (fromLexer_error call h)

/-- A new node, when the arena has room for it. -/
theorem parserAddNode_run {p : Parser L} {id : NodeId} {b : Ast}
    (h : addNode p.ast = some (id, b)) :
    parserAddNode p = some (.ok id, { p with ast := b }) := by
  unfold parserAddNode
  rw [h]

end

variable {L : Type} [TokenSource L] [LawfulTokenSource L]

/-- The parser `p` reads `rs` and has the arena `a`. -/
structure At (p : Parser L) (rs : List LexResult) (a : Ast) : Prop where
  reads : LawfulTokenSource.Reads p.lexer rs
  ast : p.ast = a

/-- `tok` is what a peek at `rs` shows. -/
def Head (rs : List LexResult) (tok : Token) : Prop :=
  (rs = [] ∧ tok = Token.eof) ∨ ∃ rest, rs = .ok tok :: rest

/-- The type of the next token is what the lookahead sees. -/
theorem Head.lookahead {rs : List LexResult} {tok : Token} (h : Head rs tok) :
    lookahead rs = some tok.type := by
  rcases h with ⟨rfl, rfl⟩ | ⟨rest, rfl⟩
  · rfl
  · rfl

/-- A token that is no end of file is the first result. -/
theorem Head.of_ne_eof {rs : List LexResult} {tok : Token} (h : Head rs tok)
    (hne : tok.type ≠ .tokenEof) : ∃ rest, rs = .ok tok :: rest := by
  rcases h with ⟨-, rfl⟩ | h
  · exact absurd rfl hne
  · exact h

/-- The tokens that a parser still reads are valid. -/
theorem At.valid {p : Parser L} {rs : List LexResult} {a : Ast} (h : At p rs a) {t : Token}
    (ht : .ok t ∈ rs) : t.Valid := LawfulTokenSource.valid h.reads ht

/-- At the end of the source nothing is left. -/
theorem At.eq_nil {p : Parser L} {rs : List LexResult} {a : Ast} (h : At p rs a)
    (heof : lookahead rs = some .tokenEof) : rs = [] := by
  rcases rs with _ | ⟨_ | t, rest⟩
  · rfl
  · cases heof
  · have : t.type = .tokenEof := by simpa [lookahead] using heof
    exact absurd this (h.valid (by simp)).1

/-- The results ahead are determined by the token source. -/
theorem reads_unique {rs : List LexResult} : ∀ {l : L} {rs' : List LexResult},
    LawfulTokenSource.Reads l rs → LawfulTokenSource.Reads l rs' → rs = rs' := by
  -- before its end a source gives no token of the type `EOF`
  have hend : ∀ {l : L} {r : LexResult} {rest : List LexResult}, LawfulTokenSource.Reads l [] →
      ¬ LawfulTokenSource.Reads l (r :: rest) := by
    intro l r rest hnil hcons
    have hr := (LawfulTokenSource.next_cons hcons).1
    rw [(LawfulTokenSource.next_nil hnil).1] at hr
    exact (LawfulTokenSource.valid (t := Token.eof) hcons (by simp [← hr])).1 rfl
  induction rs with
  | nil =>
      intro l rs' h h'
      cases rs' with
      | nil => rfl
      | cons r rest => exact absurd h' (hend h)
  | cons r rest ih =>
      intro l rs' h h'
      cases rs' with
      | nil => exact absurd h (hend h')
      | cons r' rest' =>
          obtain ⟨hr, hrest⟩ := LawfulTokenSource.next_cons h
          obtain ⟨hr', hrest'⟩ := LawfulTokenSource.next_cons h'
          rw [← hr, ← hr', ih hrest hrest']

/-! ### Peek and consume -/

/-- A peek shows the head of the results. -/
theorem parserPeek_run {p : Parser L} {rs : List LexResult} {a : Ast} {t : TokenType}
    (h : At p rs a) (ht : lookahead rs = some t) :
    ∃ tok p', parserPeek 0 p = some (.ok tok, p') ∧ Head rs tok ∧ tok.type = t ∧ At p' rs a := by
  obtain ⟨hreads, hast⟩ := h
  rcases rs with _ | ⟨_ | tok, rest⟩ <;> cases ht
  · obtain ⟨h₁, h₂⟩ := LawfulTokenSource.peek_nil hreads
    exact ⟨_, _, fromLexer_ok _ h₁, Or.inl ⟨rfl, rfl⟩, rfl, h₂, hast⟩
  · obtain ⟨h₁, h₂⟩ := LawfulTokenSource.peek_ok hreads
    exact ⟨_, _, fromLexer_ok _ h₁, Or.inr ⟨rest, rfl⟩, rfl, h₂, hast⟩

/-- A peek shows the next token and reads nothing. -/
theorem parserPeek_spec {p : Parser L} {rs : List LexResult} {a : Ast}
    (h : At p rs a) {Q : Token → Parser L → Prop}
    (hQ : ∀ tok p', Head rs tok → At p' rs a → Q tok p') : Spec (parserPeek 0) p Q := by
  cases hlook : lookahead rs with
  | some t =>
      obtain ⟨tok, p', hrun, hhead, -, hat⟩ := parserPeek_run h hlook
      exact Spec.of_ok hrun (hQ tok p' hhead hat)
  | none =>
      rcases rs with _ | ⟨e | tok, rest⟩
      · cases hlook
      · exact fromLexer_spec_error _ (LawfulTokenSource.peek_error h.reads).1
      · cases hlook

/-- A peek succeeds when there is a lookahead. -/
theorem parserPeek_returns {p : Parser L} {rs : List LexResult} {a : Ast} {t : TokenType}
    (h : At p rs a) (ht : lookahead rs = some t) {Q : Token → Parser L → Prop}
    (hQ : ∀ tok p', Head rs tok → tok.type = t → At p' rs a → Q tok p') :
    Returns (parserPeek 0) p Q := by
  obtain ⟨tok, p', hrun, hhead, htype, hat⟩ := parserPeek_run h ht
  exact ⟨tok, p', hrun, hQ tok p' hhead htype hat⟩

/-- Consuming takes the head of the results. -/
theorem parserConsume_run {p : Parser L} {rs : List LexResult} {a : Ast} {t : TokenType}
    (h : At p rs a) (ht : lookahead rs = some t) :
    ∃ tok p', parserConsume p = some (.ok tok, p') ∧ Head rs tok ∧ At p' rs.tail a := by
  obtain ⟨hreads, hast⟩ := h
  rcases rs with _ | ⟨_ | tok, rest⟩ <;> cases ht
  · obtain ⟨h₁, h₂⟩ := LawfulTokenSource.next_nil hreads
    exact ⟨_, _, fromLexer_ok _ h₁, Or.inl ⟨rfl, rfl⟩, h₂, hast⟩
  · obtain ⟨h₁, h₂⟩ := LawfulTokenSource.next_cons hreads
    exact ⟨_, _, fromLexer_ok _ h₁, Or.inr ⟨rest, rfl⟩, h₂, hast⟩

/-- The next token is read. -/
theorem parserConsume_spec {p : Parser L} {rs : List LexResult} {a : Ast}
    (h : At p rs a) {Q : Token → Parser L → Prop}
    (hQ : ∀ tok p', Head rs tok → At p' rs.tail a → Q tok p') : Spec parserConsume p Q := by
  cases hlook : lookahead rs with
  | some t =>
      obtain ⟨tok, p', hrun, hhead, hat⟩ := parserConsume_run h hlook
      exact Spec.of_ok hrun (hQ tok p' hhead hat)
  | none =>
      rcases rs with _ | ⟨e | tok, rest⟩
      · cases hlook
      · exact fromLexer_spec_error _ (LawfulTokenSource.next_cons h.reads).1
      · cases hlook

/-- Consuming after a peek takes the token that was shown. -/
theorem parserConsume_ok_spec {p : Parser L} {tok : Token} {rs : List LexResult}
    {a : Ast} (h : At p (.ok tok :: rs) a) {Q : Token → Parser L → Prop}
    (hQ : ∀ p', At p' rs a → Q tok p') : Spec parserConsume p Q := by
  refine parserConsume_spec h fun tok' p' hhead hat => ?_
  obtain rfl : tok = tok' := by
    rcases hhead with ⟨h, -⟩ | ⟨rest, h⟩ <;> cases h
    rfl
  exact hQ p' hat

/-! ### Expect and accept -/

/-- The error data are no part of what is kept. -/
theorem report_spec {p : Parser L} {rs : List LexResult} {a : Ast} (h : At p rs a)
    {f : ErrorData → ErrorData} {Q : Unit → Parser L → Prop} (hQ : ∀ p', At p' rs a → Q () p') :
    Spec (report f) p Q :=
  Spec.modify (hQ _ ⟨h.reads, h.ast⟩)

/-- The token that is expected is read. -/
theorem parserExpect_spec {p : Parser L} {rs : List LexResult} {a : Ast}
    {type : TokenType} (h : At p rs a) (hne : type ≠ .tokenEof) {Q : Token → Parser L → Prop}
    (hQ : ∀ tok rs' p', rs = .ok tok :: rs' → tok.type = type → At p' rs' a → Q tok p') :
    Spec (parserExpect type) p Q := by
  refine Spec.bind (parserConsume_spec h fun tok p' hhead hat => ?_)
  split
  · exact Spec.bind (report_spec hat fun p'' _ => Spec.fail)
  · rename_i htype
    rw [not_not] at htype
    obtain ⟨rs', rfl⟩ := hhead.of_ne_eof (htype ▸ hne)
    exact Spec.pure (hQ tok rs' p' rfl htype hat)

/-- A dropped error of `expect` skips one result, whatever it is, unless it never comes. -/
theorem ignore_parserExpect_spec {p : Parser L} {rs : List LexResult} {a : Ast}
    {type : TokenType} (h : At p rs a) {Q : Unit → Parser L → Prop}
    (hQ : ∀ p', endless rs.head? = false → At p' rs.tail a → Q () p') :
    Spec (ignoreError (parserExpect type)) p Q := by
  intro _ p' hrun
  obtain ⟨r, hexpect⟩ := ignoreError_eq_ok.mp hrun
  cases hlook : lookahead rs with
  | some t =>
      obtain ⟨tok, p₁, hconsume, -, hat⟩ := parserConsume_run h hlook
      -- a token was read, so the call has returned
      have hcomes : endless rs.head? = false := by
        rcases rs with _ | ⟨_ | tok, rest⟩
        · rfl
        · cases hlook
        · rfl
      unfold parserExpect at hexpect
      rw [bind_run_ok hconsume] at hexpect
      split at hexpect
      · cases hexpect
        exact hQ _ hcomes ⟨hat.reads, hat.ast⟩
      · cases hexpect
        exact hQ _ hcomes hat
  | none =>
      rcases rs with _ | ⟨⟨_ | code, span⟩ | tok, rest⟩
      · cases hlook
      · have hnone : parserConsume p = none :=
          fromLexer_endless _ (LawfulTokenSource.next_cons h.reads).1
        rw [parserExpect, bind_run_none hnone] at hexpect
        cases hexpect
      · obtain ⟨h₁, h₂⟩ := LawfulTokenSource.next_cons h.reads
        have hstop : parserConsume p = some (.error code, _) := fromLexer_error _ h₁
        rw [parserExpect, bind_run_error hstop] at hexpect
        cases hexpect
        exact hQ _ rfl ⟨h₂, h.ast⟩
      · cases hlook

/-- A token is read if it is there, and nothing otherwise. -/
theorem parserAccept_spec {p : Parser L} {rs : List LexResult} {a : Ast}
    {type : TokenType} (h : At p rs a) (hne : type ≠ .tokenEof)
    {Q : Option Token → Parser L → Prop}
    (hsome : ∀ tok rs' p', rs = .ok tok :: rs' → tok.type = type → At p' rs' a → Q (some tok) p')
    (hnone : ∀ t p', lookahead rs = some t → t ≠ type → At p' rs a → Q none p') :
    Spec (parserAccept type) p Q := by
  refine Spec.bind (parserPeek_spec h fun tok p₁ hhead hat => ?_)
  split
  · rename_i htype
    obtain ⟨rs', rfl⟩ := hhead.of_ne_eof (htype ▸ hne)
    exact Spec.bind (parserConsume_ok_spec hat fun p₂ hat' =>
      Spec.pure (hsome tok rs' p₂ rfl htype hat'))
  · rename_i htype
    exact Spec.pure (hnone tok.type p₁ hhead.lookahead htype hat)

/-! ### Stores into the arena -/

/-- A new node grows the arena. -/
theorem parserAddNode_spec {p : Parser L} {rs : List LexResult} {a : Ast}
    (h : At p rs a) {Q : NodeId → Parser L → Prop}
    (hQ : ∀ id b p', addNode a = some (id, b) → At p' rs b → Q id p') :
    Spec parserAddNode p Q := by
  obtain ⟨hreads, rfl⟩ := h
  rcases hadd : addNode p.ast with _ | ⟨id, b⟩
  · have hrun : parserAddNode p = some (.error .outOfNode, p) := by
      unfold parserAddNode
      rw [hadd]
    exact Spec.of_error hrun
  · exact Spec.of_ok (parserAddNode_run hadd) (hQ id b _ hadd ⟨hreads, rfl⟩)

/-- A store into a node changes the arena only. -/
theorem setNode_at {p : Parser L} {rs : List LexResult} {a : Ast} (h : At p rs a) (id : NodeId)
    (f : Node → Node) : At { p with ast := p.ast.modifyNode id f } rs (a.modifyNode id f) := by
  obtain ⟨hreads, rfl⟩ := h
  exact ⟨hreads, rfl⟩

/-- What is stored into a node. -/
theorem setNode_spec {p : Parser L} {rs : List LexResult} {a : Ast} (h : At p rs a)
    {id : NodeId} {f : Node → Node} {Q : Unit → Parser L → Prop}
    (hQ : ∀ p', At p' rs (a.modifyNode id f) → Q () p') : Spec (setNode id f) p Q :=
  Spec.modify (hQ _ (setNode_at h id f))

/-- A child that is appended changes the arena only. -/
theorem parserAppendChild_at {p : Parser L} {rs : List LexResult} {a : Ast} (h : At p rs a)
    (parent child : NodeId) :
    At { p with ast := appendChild p.ast parent child } rs (appendChild a parent child) := by
  obtain ⟨hreads, rfl⟩ := h
  exact ⟨hreads, rfl⟩

/-- What an appended child changes. -/
theorem parserAppendChild_spec {p : Parser L} {rs : List LexResult} {a : Ast}
    (h : At p rs a) {parent child : NodeId} {Q : Unit → Parser L → Prop}
    (hQ : ∀ p', At p' rs (appendChild a parent child) → Q () p') :
    Spec (parserAppendChild parent child) p Q :=
  Spec.modify (hQ _ (parserAppendChild_at h parent child))

end Nucleus.Proofs
