import Nucleus.Proofs.Ending
import Nucleus.Proofs.Tree
import Nucleus.Spec.Printing

/-!
# `Nucleus.Proofs.Printing`: parsing undoes printing

The grammar derives from the tokens that `Expr.print` writes the tree they were written for
(`derives_of_print`), so the parser builds it (`parseExpr_print_iff`). The exception is
subtraction: `nulang__is_binop` does not know `TOKEN_SUB`, so no expression that the parser
reads contains one (`Derives.noSub`).
-/

set_option autoImplicit false

namespace Nucleus.Spec

open Nucleus.Lib
open Nucleus.Lang

/-! ### Lexemes and operators -/

/-- A symbol is the type of its token. -/
theorem type_of_lexeme {tok : Token} {t : TokenType} (h : lexeme tok = .symbol t) :
    tok.type = t := by
  unfold lexeme at h
  split at h <;> simp_all

/-- A name is that of an identifier. -/
theorem name_of_lexeme {tok : Token} {s : SourceString} (h : lexeme tok = .name s) :
    tok.type = .tokenIdentifier ∧ tok.value.toIdentifier = s := by
  unfold lexeme at h
  split at h <;> simp_all

/-- A literal is that of its token. -/
theorem literal_of_lexeme {tok : Token} {l : Literal} (h : lexeme tok = .literal l) :
    tok.type = .tokenLiteral ∧ tok.value.toLiteral = l := by
  unfold lexeme at h
  split at h <;> simp_all

/-- An operator is read from its own token. -/
theorem binopFromToken_binopToken (op : Binop) : binopFromToken (binopToken op) = op := by
  cases op <;> rfl

/-- A unary operator is read from its own token. -/
theorem unopFromToken_unopToken (op : Unop) : unopFromToken (unopToken op) = op := by
  cases op <;> rfl

/-- The token of a unary operator is taken for one. -/
theorem isUnop_unopToken (op : Unop) : isUnop (unopToken op) = true := by
  cases op <;> rfl

/-- Inside parentheses every operator but the subtraction continues an expression. -/
theorem continues_binopToken {op : Binop} (h : op ≠ .binopSub) :
    Continues 1 (binopToken op) := by
  cases op <;> first | exact absurd rfl h | exact ⟨rfl, by decide⟩

/-- The token of an operator is taken for no member and no call. -/
theorem binopToken_ne (op : Binop) :
    binopToken op ≠ .tokenDot ∧ binopToken op ≠ .tokenLparen := by
  cases op <;> decide

/-- An operator that the parser knows is no subtraction. -/
theorem binopFromToken_ne_sub {t : TokenType} (h : isBinop t = true) :
    binopFromToken t ≠ .binopSub := by
  revert h
  cases t <;> decide

/-! ### No subtraction -/

/-- A member adds no subtraction. -/
theorem memberOf_noSub {o o' : Syn} {name : SourceString} (h : memberOf o name = some o')
    (ho : Kind.binop .binopSub ∉ o.labels) : Kind.binop .binopSub ∉ o'.labels := by
  unfold memberOf at h
  split at h
  · cases h
  · split at h
    · cases h
      simpa using ho
    · cases h
      simpa using ho
    · obtain ⟨f, -, rfl⟩ := Option.map_eq_some_iff.mp h
      simp only [Forest.labels_cons, List.mem_cons, List.mem_append, not_or] at ho
      simpa using ho.2.1
    · cases h

/-- The parser reads no subtraction. -/
theorem Derives.noSub {c : Cat} {rs rs' : List LexResult} {s : Syn} (h : Derives c rs s rs')
    (hbefore : Kind.binop .binopSub ∉ c.before.labels) : Kind.binop .binopSub ∉ s.labels := by
  induction h with
  | chainDot _ _ hmember _ ih => exact ih (memberOf_noSub hmember hbefore)
  | climbOp hcont _ _ ihr ihs =>
      refine ihs ?_
      have hop := (binopFromToken_ne_sub hcont.1).symm
      simp_all [Cat.before]
  | _ => simp_all [Cat.before, Forest.leaf]

/-! ### Places -/

/-- The syntax of a place is a symbol or a member, which may have members. -/
theorem memberOf_place (d : Place) (name : SourceString) :
    memberOf d.tree name = some (.tree (.member name) d.tree) := by
  cases d <;> rfl

/-- The tokens of a place are a name and the rest of its member chain. -/
theorem derives_chain_of_print : ∀ (d : Place) {toks : List Token}, toks.map lexeme = d.print →
    ∃ i ts, toks = i :: ts ∧ i.type = .tokenIdentifier ∧
      ∀ {s : Syn} {rest rest' : List LexResult}, Derives (.chain d.tree) rest s rest' →
        Derives (.chain (.leaf (.symref i.value.toIdentifier))) (ts.map .ok ++ rest) s rest' := by
  intro d
  induction d with
  | symref name =>
      intro toks h
      obtain ⟨i, ts, rfl, hi, hts⟩ := List.map_eq_cons_iff.mp h
      obtain rfl := List.map_eq_nil_iff.mp hts
      obtain ⟨htype, rfl⟩ := name_of_lexeme hi
      exact ⟨i, [], rfl, htype, fun hchain => hchain⟩
  | member object name ih =>
      intro toks h
      obtain ⟨os, ms, rfl, hos, hms⟩ := List.map_eq_append_iff.mp h
      obtain ⟨d, ms, rfl, hd, hms⟩ := List.map_eq_cons_iff.mp hms
      obtain ⟨m, ms, rfl, hm, hms⟩ := List.map_eq_cons_iff.mp hms
      obtain rfl := List.map_eq_nil_iff.mp hms
      obtain ⟨i, ts, rfl, hi, hobject⟩ := ih hos
      obtain ⟨hmtype, rfl⟩ := name_of_lexeme hm
      -- the chain so far is the owner of the member that follows
      refine ⟨i, ts ++ [d, m], rfl, hi, fun {s rest rest'} hchain => ?_⟩
      have hmember :=
        hobject (.chainDot (type_of_lexeme hd) hmtype (memberOf_place object _) hchain)
      simpa using hmember

/-! ### Expressions -/

/-- A primary expression is an expression where no operator goes on with it. -/
theorem derives_expr_of_primary {m : Nat} {s : Syn} {rs rest : List LexResult} {t : TokenType}
    (h : Derives .primary rs s rest) (ht : lookahead rest = some t) (hstop : isBinop t = false) :
    Derives (.expr m) rs s rest :=
  .expr h (.climbEnd ht fun hcont => by rw [hcont.1] at hstop; cases hstop)

/-- A primary does not start with a closing parenthesis. -/
theorem Derives.lookahead_primary {s : Syn} {rs rs' : List LexResult}
    (h : Derives .primary rs s rs') : ∃ t, lookahead rs = some t ∧ t ≠ .tokenRparen := by
  cases h with
  | paren hl _ _ => exact ⟨_, congrArg some hl, by decide⟩
  | @unop s u _ _ hu _ =>
      refine ⟨u.type, rfl, ?_⟩
      intro hr
      rw [hr] at hu
      exact absurd hu (by decide)
  | atom h =>
      cases h with
      | symbol hi _ _ => exact ⟨_, congrArg some hi, by decide⟩
      | constructor hi _ _ => exact ⟨_, congrArg some hi, by decide⟩
      | literal hi => exact ⟨_, congrArg some hi, by decide⟩
      | insert hi _ _ => exact ⟨_, congrArg some hi, by decide⟩
      | singleton hi _ _ => exact ⟨_, congrArg some hi, by decide⟩

/-- The arguments have no subtraction. -/
def Args.NoSub (args : Args) : Prop := Kind.binop .binopSub ∉ args.trees.labels

/-- The arguments of a call without subtractions have none. -/
theorem Expr.noSub_call {callee : Place} {args : Args} (h : (Expr.call callee args).NoSub) :
    args.NoSub := by
  simp only [Expr.NoSub, Expr.tree, Forest.labels_tree, Forest.labels_append, List.mem_cons,
    List.mem_append, not_or] at h
  exact h.2.2

/-- The operand of an expression without subtractions has none. -/
theorem Expr.noSub_unop {op : Unop} {e : Expr} (h : (Expr.unop op e).NoSub) : e.NoSub := by
  simp only [Expr.NoSub, Expr.tree, Forest.labels_tree, List.mem_cons, not_or] at h
  exact h.2

/-- Neither the operator nor the operands are a subtraction or have one. -/
theorem Expr.noSub_binop {op : Binop} {l r : Expr} (h : (Expr.binop op l r).NoSub) :
    op ≠ .binopSub ∧ l.NoSub ∧ r.NoSub := by
  simp only [Expr.NoSub, Expr.tree, Forest.labels_tree, Forest.labels_append, List.mem_cons,
    List.mem_append, not_or] at h
  exact ⟨fun hop => h.1 (by rw [hop]), h.2.1, h.2.2⟩

/-- The arguments one by one. -/
theorem Args.noSub_cons {e : Expr} {args : Args} (h : (Args.cons e args).NoSub) :
    e.NoSub ∧ args.NoSub := by
  simp only [Args.NoSub, Args.trees, Forest.labels_append, List.mem_append, not_or] at h
  exact h

mutual

/-- The tokens of an expression are a primary that derives its tree, with anything behind them
that does not go on with a member or a call. -/
theorem derives_of_print : ∀ (e : Expr) (toks : List Token), toks.map lexeme = e.print → e.NoSub →
    ∀ (t : TokenType) (z : List LexResult), lookahead z = some t → t ≠ .tokenDot →
      t ≠ .tokenLparen → Derives .primary (toks.map .ok ++ z) e.tree z
  | .literal l => by
      intro toks h _ t z _ _ _
      obtain ⟨i, ts, rfl, hi, hts⟩ := List.map_eq_cons_iff.mp h
      obtain rfl := List.map_eq_nil_iff.mp hts
      obtain ⟨htype, rfl⟩ := literal_of_lexeme hi
      exact .atom (.literal htype)
  | .place d => by
      intro toks h _ t z ht hdot hlparen
      obtain ⟨i, ts, rfl, hi, hchain⟩ := derives_chain_of_print d h
      exact .atom (.symbol hi (hchain (.chainEnd ht hdot)) (.callOptEnd ht hlparen))
  | .call callee args => by
      intro toks h hno t z _ _ _
      obtain ⟨cs, us, rfl, hcs, hus⟩ := List.map_eq_append_iff.mp h
      obtain ⟨lp, us, rfl, hlp, hus⟩ := List.map_eq_cons_iff.mp hus
      obtain ⟨as, us, rfl, has, hus⟩ := List.map_eq_append_iff.mp hus
      obtain ⟨rp, us, rfl, hrp, hus⟩ := List.map_eq_cons_iff.mp hus
      obtain rfl := List.map_eq_nil_iff.mp hus
      obtain ⟨i, ts, rfl, hi, hchain⟩ := derives_chain_of_print callee hcs
      have hl := type_of_lexeme hlp
      have hr := type_of_lexeme hrp
      have hcall :=
        derives_call_of_print args as has (Expr.noSub_call hno) callee.tree lp rp z hl hr
      have hlparen : lookahead (.ok lp :: (as.map .ok ++ .ok rp :: z)) = some .tokenLparen :=
        congrArg some hl
      have hatom : Derives .atom _ _ _ :=
        .symbol hi (hchain (.chainEnd hlparen (by decide))) (.callOptCall hcall)
      simpa [Expr.tree] using Derives.atom hatom
  | .unop op e => by
      intro toks h hno t z _ _ _
      obtain ⟨lp, us, rfl, hlp, hus⟩ := List.map_eq_cons_iff.mp h
      obtain ⟨u, us, rfl, hu, hus⟩ := List.map_eq_cons_iff.mp hus
      obtain ⟨es, us, rfl, hes, hus⟩ := List.map_eq_append_iff.mp hus
      obtain ⟨rp, us, rfl, hrp, hus⟩ := List.map_eq_cons_iff.mp hus
      obtain rfl := List.map_eq_nil_iff.mp hus
      have hr := type_of_lexeme hrp
      have hrparen : lookahead (.ok rp :: z) = some .tokenRparen := congrArg some hr
      have he := derives_of_print e es hes (Expr.noSub_unop hno) _ _ hrparen (by decide) (by decide)
      obtain rfl : op = unopFromToken u.type := by
        rw [type_of_lexeme hu, unopFromToken_unopToken]
      have hunop : isUnop u.type = true := by
        rw [type_of_lexeme hu]
        exact isUnop_unopToken _
      have hparen : Derives .primary _ _ _ := .paren (type_of_lexeme hlp)
        (derives_expr_of_primary (.unop hunop he) hrparen rfl) hr
      simpa [Expr.tree] using hparen
  | .binop op l r => by
      intro toks h hno t z _ _ _
      obtain ⟨hop, hnl, hnr⟩ := Expr.noSub_binop hno
      obtain ⟨lp, us, rfl, hlp, hus⟩ := List.map_eq_cons_iff.mp h
      obtain ⟨ls, us, rfl, hls, hus⟩ := List.map_eq_append_iff.mp hus
      obtain ⟨o, us, rfl, ho, hus⟩ := List.map_eq_cons_iff.mp hus
      obtain ⟨rs, us, rfl, hrs, hus⟩ := List.map_eq_append_iff.mp hus
      obtain ⟨rp, us, rfl, hrp, hus⟩ := List.map_eq_cons_iff.mp hus
      obtain rfl := List.map_eq_nil_iff.mp hus
      have hr := type_of_lexeme hrp
      have hrparen : lookahead (.ok rp :: z) = some .tokenRparen := congrArg some hr
      have htype := type_of_lexeme ho
      obtain ⟨hdot, hlparen⟩ := binopToken_ne op
      -- the operator stands behind its left operand, the parenthesis behind its right one
      have hleft := derives_of_print l ls hls hnl o.type
        (.ok o :: (rs.map .ok ++ .ok rp :: z)) rfl (htype ▸ hdot) (htype ▸ hlparen)
      have hright := derives_of_print r rs hrs hnr _ _ hrparen (by decide) (by decide)
      have hcont : Continues 1 o.type := htype ▸ continues_binopToken hop
      obtain rfl : op = binopFromToken o.type := by
        rw [htype, binopFromToken_binopToken]
      have hparen : Derives .primary _ _ _ := .paren (type_of_lexeme hlp)
        (.expr hleft (.climbOp hcont (derives_expr_of_primary hright hrparen rfl)
          (.climbEnd hrparen fun hcont => absurd hcont.1 (by decide)))) hr
      simpa [Expr.tree] using hparen

/-- The tokens of a call from its parenthesis on. -/
theorem derives_call_of_print : ∀ (args : Args) (toks : List Token),
    toks.map lexeme = args.print → args.NoSub → ∀ (o : Syn) (l r : Token) (z : List LexResult),
      l.type = .tokenLparen → r.type = .tokenRparen →
      Derives (.call o) (.ok l :: (toks.map .ok ++ .ok r :: z)) (.tree .call (o ++ args.trees)) z
  | .nil => by
      intro toks h _ o l r z hl hr
      obtain rfl := List.map_eq_nil_iff.mp h
      have hcall : Derives (.call o) (.ok l :: .ok r :: z) (.tree .call o) z := .callNone hl hr
      simpa [Args.trees] using hcall
  | .cons e rest => by
      intro toks h hno o l r z hl hr
      obtain ⟨hne, hnrest⟩ := Args.noSub_cons hno
      obtain ⟨es, as, rfl, hes, has⟩ := List.map_eq_append_iff.mp h
      obtain ⟨hargs, t, ht, hdot, hlparen, hbinop⟩ :=
        derives_args_of_print rest as has hnrest r z hr
      have he := derives_of_print e es hes hne t _ ht hdot hlparen
      obtain ⟨t', ht', hrparen⟩ := he.lookahead_primary
      have hcall : Derives (.call o) _ _ _ := .callSome hl ht' hrparen
        (derives_expr_of_primary he ht hbinop) hargs hr
      simpa [Args.trees] using hcall

/-- The tokens of further arguments, with the closing parenthesis behind them. They start with
a comma or the parenthesis. -/
theorem derives_args_of_print : ∀ (args : Args) (toks : List Token),
    toks.map lexeme = args.printNext → args.NoSub → ∀ (r : Token) (z : List LexResult),
      r.type = .tokenRparen →
      Derives .args (toks.map .ok ++ .ok r :: z) args.trees (.ok r :: z) ∧
        ∃ t, lookahead (toks.map .ok ++ .ok r :: z) = some t ∧ t ≠ .tokenDot ∧ t ≠ .tokenLparen ∧
          isBinop t = false
  | .nil => by
      intro toks h _ r z hr
      obtain rfl := List.map_eq_nil_iff.mp h
      have hrparen : lookahead (.ok r :: z) = some .tokenRparen := congrArg some hr
      exact ⟨.argsEnd hrparen (by decide), _, hrparen, by decide⟩
  | .cons e rest => by
      intro toks h hno r z hr
      obtain ⟨hne, hnrest⟩ := Args.noSub_cons hno
      obtain ⟨c, us, rfl, hc, hus⟩ := List.map_eq_cons_iff.mp h
      obtain ⟨es, as, rfl, hes, has⟩ := List.map_eq_append_iff.mp hus
      obtain ⟨hargs, t, ht, hdot, hlparen, hbinop⟩ :=
        derives_args_of_print rest as has hnrest r z hr
      have hcomma := type_of_lexeme hc
      have he := derives_of_print e es hes hne t _ ht hdot hlparen
      -- behind the argument comes a comma or the closing parenthesis, so it ends there
      have hder : Derives .args _ _ _ :=
        .argsComma hcomma (derives_expr_of_primary he ht hbinop) hargs
      refine ⟨by simpa [Args.trees] using hder, .tokenComma, congrArg some hcomma, by decide⟩

end

end Nucleus.Spec

namespace Nucleus.Proofs

open Nucleus.Lib
open Nucleus.Lib.Prog
open Nucleus.Lang
open Nucleus.Spec

section
variable {L : Type} [TokenSource L] [LawfulTokenSource L]

/-- Where the grammar derives an expression and the nodes and the fuel are enough,
`nulang__parse_expr` returns it. -/
theorem parseExpr_returns {m fuel : Nat} {rs rs' : List LexResult} {s : Syn} {p : Parser L}
    {a : Ast} (hder : Derives (.expr m) rs s rs') (h : At p rs a) (hv : a.Valid)
    (hfree : s.size ≤ a.free) (hfuel : rs.length < fuel) :
    Returns ((productions fuel).parseExpr m) p fun id p' =>
      At p' rs' p'.ast ∧ p'.ast.syntaxAt id = s := by
  have hfaces : Faces p.error.span p rs ⟨a.free - s.size + s.size, none⟩ := by
    refine ⟨h.reads, ?_, rfl⟩
    rw [h.ast, Nat.sub_add_cancel hfree]
  have hrealizes : Realizes (.expr m) rs s rs' := realizes_of_derives hder
  -- the machine reads the expression, and the parser keeps in step with it
  obtain ⟨remark, hruns⟩ : ∃ remark, parserTable.PaidRuns parserTariff
      (([.expr m], rs), ⟨a.free - s.size + s.size, none⟩)
      (([], rs'), ⟨a.free - s.size, remark⟩) := hrealizes.runs .expr rfl none
  obtain ⟨id, p', hrun⟩ :=
    ((productions_inStep fuel).expr hfaces hfuel).exists_ok hruns
  refine ⟨id, p', hrun, ?_⟩
  obtain ⟨k, cs, rs'', b, h', hb, hder'⟩ := (correctExpr fuel).expr m p rs a h hv id p' hrun
  obtain ⟨rfl, rfl⟩ := hder.unique hder'
  rw [h'.ast]
  exact ⟨⟨h'.reads, h'.ast⟩, hb.syntaxAt⟩

/-- `nulang__parse_expr` reads the tokens that an expression is written with, and builds the
expression, exactly when there is no subtraction in it. -/
theorem parseExpr_print_iff {e : Expr} {toks : List Token} {fuel : Nat} {p : Parser L} {a : Ast}
    (htoks : toks.map lexeme = e.print) (h : At p (toks.map .ok) a) (hv : a.Valid)
    (hfree : e.tree.size ≤ a.free) (hfuel : toks.length < fuel) :
    (∃ id p', (productions fuel).parseExpr 0 p = some (.ok id, p') ∧ At p' [] p'.ast ∧
      p'.ast.syntaxAt id = e.tree) ↔ e.NoSub := by
  constructor
  · rintro ⟨id, p', hrun, -, htree⟩
    obtain ⟨k, cs, rs', b, h', hb, hder⟩ := (correctExpr fuel).expr 0 p _ a h hv id p' hrun
    rw [h'.ast, hb.syntaxAt] at htree
    unfold Expr.NoSub
    rw [← htree]
    exact hder.noSub (by simp [Cat.before])
  · intro hno
    have hprimary := derives_of_print e toks htoks hno .tokenEof [] rfl (by decide) (by decide)
    rw [List.append_nil] at hprimary
    obtain ⟨id, p', hrun, hat, htree⟩ :=
      parseExpr_returns (derives_expr_of_primary hprimary rfl rfl) h hv hfree
        (by rwa [List.length_map])
    exact ⟨id, p', hrun, hat, htree⟩

end

/-- The source `(a*f(b,(-c)))`. -/
def callSource : Source :=
  ⟨['(', 'a', '*', 'f', '(', 'b', ',', '(', '-', 'c', ')', ')', ')'], by decide⟩

/-- The slice of one character at the offset `i` of a source. -/
def nameAt (source : Source) (i : Nat) : SourceString := ⟨source.val.drop i, 1⟩

/-- The expression that `callSource` writes. -/
def callExpr : Expr :=
  .binop .binopMul (.place (.symref (nameAt callSource 1)))
    (.call (.symref (nameAt callSource 3)) (.cons (.place (.symref (nameAt callSource 5)))
      (.cons (.unop .unopNeg (.place (.symref (nameAt callSource 9)))) .nil)))

/-- The tokens among the results of a source. -/
def tokensOf (source : Source) : List Token := (resultsOf source).filterMap fun
  | .ok tok => some tok
  | .error _ => none

/-- The parse of the printed `callExpr` gives its tree. -/
theorem parseExpr_print_iff_callExpr :
    ∃ id p', (productions 14).parseExpr 0 (startOn callSource) = some (.ok id, p') ∧
      At p' [] p'.ast ∧ p'.ast.syntaxAt id = callExpr.tree := by
  have hresults : (tokensOf callSource).map .ok = resultsOf callSource := by decide +kernel
  have hat : At (startOn callSource) ((tokensOf callSource).map .ok) (startOn callSource).ast := by
    rw [hresults]
    exact at_parserStart callSource _ _ _
  exact (parseExpr_print_iff (by decide +kernel) hat
    (astInit_cleared _ (by decide)).holdsModule.valid (by decide) (by decide +kernel)).mpr
    (by decide +kernel)

/-- The source `(a-b)`. -/
def subSource : Source := ⟨['(', 'a', '-', 'b', ')'], by decide⟩

/-- The expression that `subSource` writes. -/
def subExpr : Expr :=
  .binop .binopSub (.place (.symref (nameAt subSource 1))) (.place (.symref (nameAt subSource 3)))

/-- `nulang__parse_expr` rejects the tokens of `a - b`. -/
theorem parseExpr_subExpr :
    (tokensOf subSource).map .ok = resultsOf subSource ∧
      (tokensOf subSource).map lexeme = subExpr.print ∧
      ∃ p', (productions 14).parseExpr 0 (startOn subSource) =
        some (.error .unexpectedToken, p') := by
  have hrun : ((productions 14).parseExpr 0 (startOn subSource)).map Prod.fst =
      some (.error .unexpectedToken) := by decide +kernel
  obtain ⟨⟨r, p'⟩, hrun, rfl⟩ := Option.map_eq_some_iff.mp hrun
  exact ⟨by decide +kernel, by decide +kernel, p', hrun⟩

end Nucleus.Proofs
