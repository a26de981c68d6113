import Nucleus.Proofs.Printing
import Nucleus.Proofs.Texts
import Nucleus.Proofs.Unparse
import Nucleus.Spec.Writing

/-!
# `Nucleus.Proofs.Writing`: the grammar derives a tree from its writing

Whatever the grammar derives, it derives again from what `write` writes for it
(`DerivesModule.rewritten`). The induction is over the derivation, and `Rewritten` says for each
production what its syntax can be rewritten as. An operand of any expression, for instance, is
derived as a primary, since `write` puts operators in parentheses. A member chain is derived from
its head on (`Headed`), because the grammar carries the chain that it has read so far.
-/

set_option autoImplicit false

namespace Nucleus.Spec

open Nucleus.Lib
open Nucleus.Lang

/-! ### What can be rewritten -/

/-- The tokens that a statement begins with. -/
def stmtStart : List TokenType :=
  [.tokenLet, .tokenFunction, .tokenReturn, .tokenIf, .tokenWhile, .tokenIdentifier]

/-- The tokens that end a body. -/
def closers : List TokenType := [.tokenEof, .tokenEnd, .tokenElse, .tokenElif]

/-- The results start with one of these tokens. -/
def StartsWith (ts : List TokenType) (z : List LexResult) : Prop :=
  ∃ t ∈ ts, lookahead z = some t

/-- The results go on with another statement, or end the body. -/
abbrev StmtFollows (z : List LexResult) : Prop := StartsWith (stmtStart ++ closers) z

/-- The syntax that a member chain starts with. -/
def headOf : Lexeme → Syn
  | .name s => .leaf (.symref s)
  | .primitive p => .leaf (.builtin (.builtinConstructor p))
  | _ => .nil

/-- The syntax is one tree, a member chain that starts with the lexeme `i`. Where it goes on, so
does the chain from its start. -/
structure Headed (i : Lexeme) (o : Syn) (ts : List Lexeme) : Prop where
  writings : writings o = [i :: ts]
  chain : ∀ {z z' : List LexResult} {s : Syn},
    Derives (.chain o) z s z' → Derives (.chain (headOf i)) (said ts ++ z) s z'

/-- The lexeme is a name or a primitive. -/
def Lexeme.Head (i : Lexeme) : Prop := (∃ s, i = .name s) ∨ ∃ p, i = .primitive p

/-- The syntax is one tree, and what is written for it is a primary. -/
def Operand (s : Syn) : Prop :=
  ∃ p, writings s = [p] ∧ ∀ {z : List LexResult} {t : TokenType}, lookahead z = some t →
    t ≠ .tokenDot → t ≠ .tokenLparen → Derives .primary (said p ++ z) s z

/-- What a production can be rewritten as: from what is written for its syntax it derives this
syntax again. -/
def Rewritten : Cat → Syn → Prop
  | .chain o, s => ∀ i ts, Headed i o ts → ∃ ts', Headed i s ts'
  | .callOpt o, s => ∀ i ts, i.Head → Headed i o ts → Operand s
  | .call o, s => ∃ cs, s = .tree .call (o ++ cs) ∧ ∀ z : List LexResult,
      Derives (.call o) (said (.symbol .tokenLparen ::
        (writeList (writings cs) ++ [.symbol .tokenRparen])) ++ z) s z
  | .args, s => ∀ z : List LexResult, lookahead z = some .tokenRparen →
      Derives .args (said (writeNext (writings s)) ++ z) s z ∧
        StartsWith [.tokenComma, .tokenRparen] (said (writeNext (writings s)) ++ z)
  | .atom, s | .primary, s | .expr _, s => Operand s
  | .climb _ l, s => Operand l → Operand s
  | .params, s => ∃ i p ps, writings s = (.name i :: p) :: ps ∧ ∀ z : List LexResult,
      lookahead z = some .tokenRparen →
        Derives .params (said (.name i :: p ++ writeNext ps) ++ z) s z
  | .paramsOpt, s => ∀ z : List LexResult, lookahead z = some .tokenRparen →
      Derives .paramsOpt (said (writeList (writings s)) ++ z) s z
  | .branch, s => ∃ c b, writings s = [c, b] ∧ ∀ z : List LexResult, StartsWith ifBodyStop z →
      Derives .branch (said (c ++ .symbol .tokenThen :: b) ++ z) s z
  | .elifs, s => ∃ ls, (∀ ps, writeBranches (writings s ++ ps) = ls ++ writeBranches ps) ∧
      ∀ z : List LexResult, StartsWith [.tokenElse, .tokenEnd] z →
        Derives .elifs (said ls ++ z) s z ∧ StartsWith ifBodyStop (said ls ++ z)
  | .elseOpt, s => ∀ z : List LexResult, lookahead z = some .tokenEnd →
      Derives .elseOpt (said (writeBranches (writings s)) ++ z) s z ∧
        StartsWith [.tokenElse, .tokenEnd] (said (writeBranches (writings s)) ++ z)
  | .stmt, s => ∃ p, writings s = [p] ∧ ∀ z : List LexResult,
      StartsWith stmtStart (said p ++ z) ∧ (StmtFollows z → Derives .stmt (said p ++ z) s z)
  | .body stop, s => (∀ t ∈ stop, t ∈ closers) → ∀ z : List LexResult, StartsWith stop z →
      Derives (.body stop) (said (write s) ++ z) s z ∧ StmtFollows (said (write s) ++ z)

/-- More tokens may start the results. -/
theorem StartsWith.mono {ts us : List TokenType} {z : List LexResult} (h : StartsWith ts z)
    (hsub : ∀ t ∈ ts, t ∈ us) : StartsWith us z :=
  h.imp fun _ ht => ⟨hsub _ ht.1, ht.2⟩

/-- What goes on with a statement or ends a body does not go on with an expression. -/
theorem StmtFollows.lookahead {z : List LexResult} (h : StmtFollows z) :
    ∃ t, lookahead z = some t ∧ t ≠ .tokenDot ∧ t ≠ .tokenLparen ∧ t ≠ .tokenColon ∧
      isBinop t = false := by
  obtain ⟨t, ht, hlook⟩ := h
  have hall : ∀ t ∈ stmtStart ++ closers, t ≠ .tokenDot ∧ t ≠ .tokenLparen ∧ t ≠ .tokenColon ∧
      isBinop t = false := by decide
  exact ⟨t, hlook, hall t ht⟩

/-- What stands behind an argument does not go on with it. -/
theorem StartsWith.lookahead_args {z : List LexResult}
    (h : StartsWith [.tokenComma, .tokenRparen] z) :
    ∃ t, lookahead z = some t ∧ t ≠ .tokenDot ∧ t ≠ .tokenLparen ∧ isBinop t = false := by
  obtain ⟨t, ht, hlook⟩ := h
  have hall : ∀ t ∈ [TokenType.tokenComma, .tokenRparen],
      t ≠ .tokenDot ∧ t ≠ .tokenLparen ∧ isBinop t = false := by decide
  exact ⟨t, hlook, hall t ht⟩

/-! ### Operands and chains -/

/-- An operand is an expression where nothing goes on with it. -/
theorem Operand.expr {s : Syn} {p : List Lexeme} {m : Nat} {z : List LexResult} {t : TokenType}
    (h : Operand s) (hp : writings s = [p]) (ht : lookahead z = some t) (hdot : t ≠ .tokenDot)
    (hlparen : t ≠ .tokenLparen) (hbinop : isBinop t = false) :
    Derives (.expr m) (said p ++ z) s z := by
  obtain ⟨p', hp', hder⟩ := h
  obtain rfl : p = p' := List.singleton_inj.mp (hp.symm.trans hp')
  exact derives_expr_of_primary (hder ht hdot hlparen) ht hbinop

/-- A chain that nothing goes on with is derived from its head. -/
theorem Headed.derives {i : Lexeme} {o : Syn} {ts : List Lexeme} (h : Headed i o ts)
    {z : List LexResult} {t : TokenType} (ht : lookahead z = some t) (hdot : t ≠ .tokenDot) :
    Derives (.chain (headOf i)) (said ts ++ z) o z :=
  h.chain (.chainEnd ht hdot)

/-- A chain with a call or without one, from its head. -/
theorem atom_of_head {i : Lexeme} (hi : i.Head) {z z₁ z' : List LexResult} {o s : Syn}
    (hchain : Derives (.chain (headOf i)) z o z₁) (hcall : Derives (.callOpt o) z₁ s z') :
    Derives .atom (.ok i.token :: z) s z' := by
  rcases hi with ⟨s, rfl⟩ | ⟨p, rfl⟩
  · exact .symbol rfl hchain hcall
  · exact .constructor rfl hchain hcall

/-- The builtin functions are found by their own names. -/
theorem findBuiltinFunction_self {f : BuiltinFunction} (h : f ∈ builtins) :
    findBuiltinFunction f.primitive (wholeString f.name) = some f := by
  have hall : ∀ f ∈ builtins, findBuiltinFunction f.primitive (wholeString f.name) = some f := by
    decide
  exact hall f h

/-- A member is written behind its object. -/
theorem Headed.member {i : Lexeme} {o o' : Syn} {ts : List Lexeme} {name : SourceString}
    (h : Headed i o ts) (hmember : memberOf o name = some o') : ∃ ts', Headed i o' ts' := by
  have hstep : ∀ {z z' : List LexResult} {s : Syn}, Derives (.chain o') z s z' →
      Derives (.chain o) (said [.symbol .tokenDot, .name name] ++ z) s z' :=
    fun hder => .chainDot rfl rfl hmember hder
  have hown : o' = .tree (.member name) o → ∃ ts', Headed i o' ts' := by
    rintro rfl
    refine ⟨ts ++ [.symbol .tokenDot, .name name], ?_, fun hder => ?_⟩
    · simp [h.writings]
    · have hchain := h.chain (hstep hder)
      rw [said_append, List.append_assoc]
      exact hchain
  -- the object is a symbol, a member or the constructor of a primitive
  cases o with
  | nil => cases hmember
  | cons k cs next =>
      cases k
      case symref => exact hown (Option.some.inj hmember).symm
      case member => exact hown (Option.some.inj hmember).symm
      case builtin c =>
        cases c
        case builtinConstructor primitive =>
          obtain ⟨f, hfind, rfl⟩ := Option.map_eq_some_iff.mp hmember
          obtain ⟨hprimitive, -⟩ := findBuiltinFunction_eq hfind
          have hself := findBuiltinFunction_self (List.mem_of_find?_eq_some hfind)
          obtain ⟨hhead, hnext⟩ := List.cons.inj h.writings
          obtain ⟨rfl, rfl⟩ := List.cons.inj hhead
          -- nothing stands behind the constructor, so it has no children
          have hleaf : Derives (.chain (headOf (.primitive primitive))) [] _ [] :=
            h.derives (z := []) rfl (by decide)
          cases hleaf
          rw [hprimitive] at hself
          refine ⟨[.symbol .tokenDot, .name (wholeString f.name)], ?_, fun hder => ?_⟩
          · rw [writings_tree, writeNode_function, hprimitive]
          · refine .chainDot rfl rfl ?_ hder
            show (findBuiltinFunction primitive (wholeString f.name)).map _ = _
            rw [hself]
            rfl
        all_goals cases hmember
      all_goals cases hmember

/-- Operands with an operator between them are written in parentheses. -/
theorem operand_binop {l r : Syn} {t : TokenType} (ht : isBinop t = true) (hl : Operand l)
    (hr : Operand r) : Operand (.tree (.binop (binopFromToken t)) (l ++ r)) := by
  obtain ⟨pl, hpl, hleft⟩ := hl
  obtain ⟨pr, hpr, hright⟩ := hr
  refine ⟨_, by rw [writings_tree, writings_append, hpl, hpr], fun {z _} _ _ _ => ?_⟩
  have hrparen : lookahead (.ok (Lexeme.symbol .tokenRparen).token :: z) = some .tokenRparen := rfl
  obtain ⟨hdot, hlparen⟩ := binopToken_ne (binopFromToken t)
  have hcont : Continues 1 (Lexeme.symbol (binopToken (binopFromToken t))).token.type :=
    continues_binopToken (binopFromToken_ne_sub ht)
  -- the operator stands behind its left operand, the parenthesis behind its right one
  have hclimb : Derives (.climb 1 l) _ _ _ := .climbOp hcont
    (derives_expr_of_primary (hright hrparen (by decide) (by decide)) hrparen rfl)
    (.climbEnd hrparen fun hcont => absurd hcont.1 (by decide))
  have hparen : Derives .primary _ _ _ := .paren (l := (Lexeme.symbol .tokenLparen).token) rfl
    (.expr (hleft (z := .ok _ :: (said pr ++ .ok _ :: z)) rfl hdot hlparen) hclimb) rfl
  have hop : binopFromToken (binopToken (binopFromToken t)) = binopFromToken t :=
    binopFromToken_binopToken _
  simpa [hop] using hparen

/-- A prefix operator in front of an operand is an operand. -/
theorem operand_unop {s : Syn} (t : TokenType) (hs : Operand s) :
    Operand (.tree (.unop (unopFromToken t)) s) := by
  obtain ⟨p, hp, hder⟩ := hs
  refine ⟨_, by rw [writings_tree, hp], fun {z _} _ _ _ => ?_⟩
  have hrparen : lookahead (.ok (Lexeme.symbol .tokenRparen).token :: z) = some .tokenRparen := rfl
  have hunop : isUnop (Lexeme.symbol (unopToken (unopFromToken t))).token.type = true :=
    isUnop_unopToken _
  have hparen : Derives .primary _ _ _ := .paren (l := (Lexeme.symbol .tokenLparen).token) rfl
    (derives_expr_of_primary (.unop hunop (hder hrparen (by decide) (by decide))) hrparen rfl) rfl
  have hop : unopFromToken (unopToken (unopFromToken t)) = unopFromToken t :=
    unopFromToken_unopToken _
  simpa [hop] using hparen

/-! ### Types -/

/-- A type is derived again. -/
theorem DerivesType.rewritten {ty : Vartype} {rs rs' : List LexResult} (h : DerivesType rs ty rs')
    (z : List LexResult) : DerivesType (said (writeType ty) ++ z) ty z := by
  cases h with
  | primitive _ _ => exact .primitive rfl rfl
  | archetype _ _ => exact .archetype rfl rfl

/-- A type that may be absent is derived again, when no colon follows. -/
theorem DerivesTypeOpt.rewritten {ty : Vartype} {rs rs' : List LexResult}
    (h : DerivesTypeOpt rs ty rs') {z : List LexResult} {t : TokenType}
    (ht : lookahead z = some t) (hcolon : t ≠ .tokenColon) :
    DerivesTypeOpt (said (writeTypeOpt ty) ++ z) ty z := by
  unfold writeTypeOpt
  by_cases hno : ty = noType
  · rw [if_pos hno, hno]
    exact .absent ht hcolon
  · rw [if_neg hno]
    cases h with
    | absent _ _ => exact absurd rfl hno
    | present h => exact .present (h.rewritten z)

/-! ### Member chains and calls -/

/-- One more member of a chain. -/
theorem rewritten_chainDot {o o' s : Syn} {m : Token}
    (hmember : memberOf o m.value.toIdentifier = some o') (ih : Rewritten (.chain o') s) :
    Rewritten (.chain o) s := by
  intro i ts hi
  obtain ⟨ts', hi'⟩ := hi.member hmember
  exact ih i ts' hi'

/-- What is not called. -/
theorem rewritten_callOptEnd {o : Syn} : Rewritten (.callOpt o) o := by
  intro i ts hhead hi
  exact ⟨i :: ts, hi.writings, fun ht hdot hlparen =>
    .atom (atom_of_head hhead (hi.derives ht hdot) (.callOptEnd ht hlparen))⟩

/-- A call. -/
theorem rewritten_callOptCall {o s : Syn} (ih : Rewritten (.call o) s) :
    Rewritten (.callOpt o) s := by
  intro i ts hhead hi
  obtain ⟨cs, rfl, hcall⟩ := ih
  refine ⟨i :: ts ++ .symbol .tokenLparen :: (writeList (writings cs) ++ [.symbol .tokenRparen]),
    by simp [hi.writings], fun {z _} _ _ _ => ?_⟩
  rw [said_append, List.append_assoc]
  exact .atom (atom_of_head hhead (hi.derives rfl (by decide)) (.callOptCall (hcall z)))

/-- A call with arguments. -/
theorem rewritten_callSome {o e as : Syn} (ihe : Operand e) (ihas : Rewritten .args as) :
    Rewritten (.call o) (.tree .call (o ++ (e ++ as))) := by
  refine ⟨e ++ as, rfl, fun z => ?_⟩
  obtain ⟨p, hp, hprimary⟩ := id ihe
  obtain ⟨hargs, hnext⟩ := ihas (.ok (Lexeme.symbol .tokenRparen).token :: z) rfl
  obtain ⟨t, hlook, hdot, hlparen, hbinop⟩ := hnext.lookahead_args
  obtain ⟨t', hlook', hrparen⟩ := (hprimary hlook hdot hlparen).lookahead_primary
  have hcall : Derives (.call o) (.ok (Lexeme.symbol .tokenLparen).token :: _) _ z :=
    .callSome rfl hlook' hrparen (ihe.expr hp hlook hdot hlparen hbinop) hargs rfl
  simpa [hp, writeList] using hcall

/-- No more arguments. -/
theorem rewritten_argsEnd : Rewritten .args .nil := by
  intro z hz
  exact ⟨.argsEnd hz (by decide), .tokenRparen, by decide, hz⟩

/-- One more argument. -/
theorem rewritten_argsComma {e as : Syn} (ihe : Operand e) (ihas : Rewritten .args as) :
    Rewritten .args (e ++ as) := by
  intro z hz
  obtain ⟨p, hp, -⟩ := id ihe
  obtain ⟨hargs, hnext⟩ := ihas z hz
  obtain ⟨t, hlook, hdot, hlparen, hbinop⟩ := hnext.lookahead_args
  have hder : Derives .args (.ok (Lexeme.symbol .tokenComma).token :: _) (e ++ as) z :=
    .argsComma rfl (ihe.expr hp hlook hdot hlparen hbinop) hargs
  have hwrite : writeNext (writings (e ++ as)) =
      .symbol .tokenComma :: (p ++ writeNext (writings as)) := by
    simp [hp, writeNext]
  rw [hwrite]
  refine ⟨?_, .tokenComma, by decide, rfl⟩
  simpa using hder

/-! ### Expressions -/

/-- An operand that begins with a name. -/
theorem rewritten_symbol {o s : Syn} {i : Token}
    (ihchain : Rewritten (.chain (.leaf (.symref i.value.toIdentifier))) o)
    (ihcall : Rewritten (.callOpt o) s) : Rewritten .atom s := by
  obtain ⟨ts, hi⟩ := ihchain _ [] ⟨rfl, fun hder => hder⟩
  exact ihcall _ ts (Or.inl ⟨_, rfl⟩) hi

/-- An operand that begins with a primitive. -/
theorem rewritten_constructor {o s : Syn} {i : Token}
    (ihchain : Rewritten (.chain (.leaf (.builtin (.builtinConstructor i.value.toPrimitive)))) o)
    (ihcall : Rewritten (.callOpt o) s) : Rewritten .atom s := by
  obtain ⟨ts, hi⟩ := ihchain _ [] ⟨rfl, fun hder => hder⟩
  exact ihcall _ ts (Or.inr ⟨_, rfl⟩) hi

/-! ### Parameters and branches -/

/-- The last parameter. -/
theorem rewritten_paramsLast {ty : Vartype} {i : Token} {rs rs' : List LexResult}
    (hty : DerivesType rs ty rs') :
    Rewritten .params (.leaf (.argdecl i.value.toIdentifier ty)) := by
  refine ⟨_, _, [], rfl, fun z hz => ?_⟩
  rw [show writeNext [] = [] from rfl, List.append_nil]
  exact .paramsLast rfl (hty.rewritten z) hz (by decide)

/-- A parameter with more behind it. -/
theorem rewritten_paramsComma {ty : Vartype} {ps : Syn} {j c : Token} {rs rs₁ : List LexResult}
    (hty : DerivesType rs ty (.ok c :: rs₁)) (ih : Rewritten .params ps) :
    Rewritten .params (.leaf (.argdecl j.value.toIdentifier ty) ++ ps) := by
  obtain ⟨i, p, ps, hps, hder⟩ := ih
  refine ⟨j.value.toIdentifier, writeType ty, (.name i :: p) :: ps, by simp [hps],
    fun z hz => ?_⟩
  have hparams : Derives .params (.ok (Lexeme.name j.value.toIdentifier).token :: _) _ z :=
    .paramsComma rfl (hty.rewritten (.ok (Lexeme.symbol .tokenComma).token :: _)) rfl (hder z hz)
  simpa [writeNext] using hparams

/-- The parameters of a function. -/
theorem rewritten_paramsSome {ps : Syn} (ih : Rewritten .params ps) : Rewritten .paramsOpt ps := by
  intro z hz
  obtain ⟨i, p, ps, hps, hder⟩ := ih
  rw [hps]
  exact .paramsSome (t := .tokenIdentifier) rfl (by decide) (hder z hz)

/-- A condition and its body. -/
theorem rewritten_branch {c b : Syn} (ihc : Operand c)
    (ihb : Rewritten (.body ifBodyStop) b) : Rewritten .branch (c ++ .tree .compound b) := by
  obtain ⟨p, hp, -⟩ := id ihc
  refine ⟨p, write b, by simp [hp, write], fun z hz => ?_⟩
  have hbody := (ihb (by decide) z hz).1
  have hder : Derives .branch _ _ z :=
    .branch (ihc.expr hp (z := .ok (Lexeme.symbol .tokenThen).token :: _) rfl (by decide)
      (by decide) (by decide)) rfl hbody
  simpa using hder

/-- No more branches. -/
theorem rewritten_elifsEnd : Rewritten .elifs .nil := by
  refine ⟨[], fun ps => rfl, fun z hz => ?_⟩
  obtain ⟨t, ht, hlook⟩ := id hz
  have hall : ∀ t ∈ [TokenType.tokenElse, .tokenEnd], t ≠ .tokenElif ∧ t ∈ ifBodyStop := by decide
  exact ⟨.elifsEnd hlook (hall t ht).1, hz.mono fun t ht => (hall t ht).2⟩

/-- One more branch. -/
theorem rewritten_elifsElif {b es : Syn} (ihb : Rewritten .branch b) (ihes : Rewritten .elifs es) :
    Rewritten .elifs (b ++ es) := by
  obtain ⟨c, body, hcb, hbranch⟩ := ihb
  obtain ⟨ls, hls, helifs⟩ := ihes
  refine ⟨.symbol .tokenElif :: (c ++ .symbol .tokenThen :: body) ++ ls, ?_, fun z hz => ?_⟩
  · intro ps
    rw [writings_append, hcb, List.append_assoc]
    show writeBranches (c :: body :: (writings es ++ ps)) = _
    rw [writeBranches, hls]
    simp
  · obtain ⟨hes, hstart⟩ := helifs z hz
    have hder : Derives .elifs (.ok (Lexeme.symbol .tokenElif).token :: _) _ z :=
      .elifsElif rfl (hbranch _ hstart) hes
    refine ⟨?_, .tokenElif, by decide, rfl⟩
    simpa using hder

/-- The last branch. -/
theorem rewritten_elseSome {b : Syn} (ih : Rewritten (.body ifBodyStop) b) :
    Rewritten .elseOpt (.tree .compound b) := by
  intro z hz
  have hbody := (ih (by decide) z ⟨.tokenEnd, by decide, hz⟩).1
  have hder : Derives .elseOpt (.ok (Lexeme.symbol .tokenElse).token :: _) _ z :=
    .elseSome rfl hbody
  exact ⟨hder, .tokenElse, by decide, rfl⟩

/-! ### Statements -/

/-- A declaration of a variable. -/
theorem rewritten_vardecl {ty : Vartype} {e : Syn} {i a : Token} {rs rs₁ : List LexResult}
    (hty : DerivesTypeOpt rs ty (.ok a :: rs₁)) (ih : Operand e) :
    Rewritten .stmt (.tree (.vardecl i.value.toIdentifier ty) e) := by
  obtain ⟨p, hp, -⟩ := id ih
  refine ⟨_, rfl, fun z => ⟨⟨.tokenLet, by decide, rfl⟩, fun hz => ?_⟩⟩
  obtain ⟨t, ht, hdot, hlparen, -, hbinop⟩ := hz.lookahead
  have hder : Derives .stmt _ _ z := .vardecl (l := (Lexeme.symbol .tokenLet).token)
    (i := (Lexeme.name i.value.toIdentifier).token) rfl rfl
    (hty.rewritten (z := .ok (Lexeme.symbol .tokenAssign).token :: _) rfl (by decide)) rfl
    (ih.expr hp ht hdot hlparen hbinop)
  simpa [hp] using hder

/-- A function. -/
theorem rewritten_fundecl {ty : Vartype} {ps b : Syn} {i : Token} {rs₁ rs₂ : List LexResult}
    (hty : DerivesTypeOpt rs₁ ty rs₂) (ihps : Rewritten .paramsOpt ps)
    (ihb : Rewritten (.body endStop) b) :
    Rewritten .stmt (.tree (.fundecl i.value.toIdentifier ty false) (ps ++ .tree .compound b)) := by
  -- the last child is the body, the others are the parameters
  have hwrite : writings (.tree (.fundecl i.value.toIdentifier ty false)
      (ps ++ .tree .compound b)) = [.symbol .tokenFunction :: .name i.value.toIdentifier ::
        .symbol .tokenLparen :: (writeList (writings ps) ++ .symbol .tokenRparen ::
          (writeTypeOpt ty ++ (write b ++ [.symbol .tokenEnd])))] := by
    simp [write]
  refine ⟨_, hwrite, fun z => ⟨⟨.tokenFunction, by decide, rfl⟩, fun _ => ?_⟩⟩
  obtain ⟨hbody, hnext⟩ := ihb (by decide) (.ok (Lexeme.symbol .tokenEnd).token :: z)
    ⟨.tokenEnd, by decide, rfl⟩
  obtain ⟨t, ht, -, -, hcolon, -⟩ := hnext.lookahead
  have hparams := ihps (.ok (Lexeme.symbol .tokenRparen).token ::
    (said (writeTypeOpt ty) ++ (said (write b) ++ .ok (Lexeme.symbol .tokenEnd).token :: z))) rfl
  have hder : Derives .stmt _ _ z := .fundecl (f := (Lexeme.symbol .tokenFunction).token)
    (i := (Lexeme.name i.value.toIdentifier).token)
    (l := (Lexeme.symbol .tokenLparen).token) rfl rfl rfl hparams rfl (hty.rewritten ht hcolon)
    hbody rfl
  simpa using hder

/-- A return. -/
theorem rewritten_returnStmt {e : Syn} (ih : Operand e) :
    Rewritten .stmt (.tree .returnStmt e) := by
  obtain ⟨p, hp, -⟩ := id ih
  refine ⟨_, rfl, fun z => ⟨⟨.tokenReturn, by decide, rfl⟩, fun hz => ?_⟩⟩
  obtain ⟨t, ht, hdot, hlparen, -, hbinop⟩ := hz.lookahead
  have hder : Derives .stmt _ _ z := .returnStmt (r := (Lexeme.symbol .tokenReturn).token) rfl
    (ih.expr hp ht hdot hlparen hbinop)
  simpa [hp] using hder

/-- A conditional. -/
theorem rewritten_ifStmt {b es l : Syn} (ihb : Rewritten .branch b) (ihes : Rewritten .elifs es)
    (ihl : Rewritten .elseOpt l) : Rewritten .stmt (.tree .ifStmt (b ++ (es ++ l))) := by
  obtain ⟨c, body, hcb, hbranch⟩ := ihb
  obtain ⟨ls, hls, helifs⟩ := ihes
  have hwrite : writings (.tree .ifStmt (b ++ (es ++ l))) =
      [.symbol .tokenIf :: (c ++ .symbol .tokenThen :: (body ++
        (ls ++ writeBranches (writings l) ++ [.symbol .tokenEnd])))] := by
    rw [writings_tree, writings_append, writings_append, hcb, ← hls]
    rfl
  refine ⟨_, hwrite, fun z => ⟨⟨.tokenIf, by decide, rfl⟩, fun _ => ?_⟩⟩
  obtain ⟨helse, hnext⟩ := ihl (.ok (Lexeme.symbol .tokenEnd).token :: z) rfl
  obtain ⟨hes, hstart⟩ := helifs _ hnext
  have hder : Derives .stmt _ _ z := .ifStmt (i := (Lexeme.symbol .tokenIf).token) rfl
    (hbranch _ hstart) hes helse rfl
  simpa using hder

/-- A loop. -/
theorem rewritten_whileStmt {c b : Syn} (ihc : Operand c)
    (ihb : Rewritten (.body endStop) b) :
    Rewritten .stmt (.tree .whileStmt (c ++ .tree .compound b)) := by
  obtain ⟨p, hp, -⟩ := id ihc
  have hwrite : writings (.tree .whileStmt (c ++ .tree .compound b)) =
      [.symbol .tokenWhile :: (p ++ .symbol .tokenDo :: (write b ++ [.symbol .tokenEnd]))] := by
    simp [hp, write]
  refine ⟨_, hwrite, fun z => ⟨⟨.tokenWhile, by decide, rfl⟩, fun _ => ?_⟩⟩
  have hbody := (ihb (by decide) (.ok (Lexeme.symbol .tokenEnd).token :: z)
    ⟨.tokenEnd, by decide, rfl⟩).1
  have hder : Derives .stmt _ _ z := .whileStmt (w := (Lexeme.symbol .tokenWhile).token) rfl
    (ihc.expr hp (z := .ok (Lexeme.symbol .tokenDo).token :: _) rfl (by decide) (by decide)
      (by decide)) rfl hbody rfl
  simpa using hder

/-- An assignment. -/
theorem rewritten_assign {o e : Syn} {i : Token}
    (ihchain : Rewritten (.chain (.leaf (.symref i.value.toIdentifier))) o)
    (ihe : Operand e) : Rewritten .stmt (.tree .assign (o ++ e)) := by
  obtain ⟨ts, hi⟩ := ihchain (.name i.value.toIdentifier) [] ⟨rfl, fun hder => hder⟩
  obtain ⟨p, hp, -⟩ := id ihe
  have hwrite : writings (.tree .assign (o ++ e)) =
      [.name i.value.toIdentifier :: (ts ++ .symbol .tokenAssign :: p)] := by
    simp [hi.writings, hp]
  refine ⟨_, hwrite, fun z => ⟨⟨.tokenIdentifier, by decide, rfl⟩, fun hz => ?_⟩⟩
  obtain ⟨t, ht, hdot, hlparen, -, hbinop⟩ := hz.lookahead
  have hder : Derives .stmt _ _ z := .assign (i := (Lexeme.name i.value.toIdentifier).token) rfl
    (hi.derives (z := .ok (Lexeme.symbol .tokenAssign).token :: _) rfl (by decide)) rfl
    (ihe.expr hp ht hdot hlparen hbinop)
  simpa using hder

/-- A call as a statement. -/
theorem rewritten_callStmt {o s : Syn} {i : Token}
    (ihchain : Rewritten (.chain (.leaf (.symref i.value.toIdentifier))) o)
    (ihcall : Rewritten (.call o) s) : Rewritten .stmt s := by
  obtain ⟨ts, hi⟩ := ihchain (.name i.value.toIdentifier) [] ⟨rfl, fun hder => hder⟩
  obtain ⟨cs, rfl, hcall⟩ := ihcall
  have hwrite : writings (.tree .call (o ++ cs)) =
      [.name i.value.toIdentifier :: (ts ++ .symbol .tokenLparen ::
        (writeList (writings cs) ++ [.symbol .tokenRparen]))] := by
    simp [hi.writings]
  refine ⟨_, hwrite, fun z => ⟨⟨.tokenIdentifier, by decide, rfl⟩, fun _ => ?_⟩⟩
  have hder : Derives .stmt _ _ z := .callStmt (i := (Lexeme.name i.value.toIdentifier).token)
    rfl (hi.derives rfl (by decide)) (hcall z)
  simpa using hder

/-- No more statements. -/
theorem rewritten_bodyEnd {stop : List TokenType} : Rewritten (.body stop) .nil := by
  intro hstop z hz
  obtain ⟨t, ht, hlook⟩ := id hz
  exact ⟨.bodyEnd hlook ht, hz.mono fun t ht => List.mem_append_right _ (hstop t ht)⟩

/-- One more statement of a body. -/
theorem rewritten_bodyStmt {stop : List TokenType} {s b : Syn} (ihs : Rewritten .stmt s)
    (ihb : Rewritten (.body stop) b) : Rewritten (.body stop) (s ++ b) := by
  intro hstop z hz
  obtain ⟨p, hp, hstmt⟩ := ihs
  obtain ⟨hbody, hnext⟩ := ihb hstop z hz
  obtain ⟨hstart, hder⟩ := hstmt (said (write b) ++ z)
  obtain ⟨t, ht, hlook⟩ := id hstart
  -- no token that begins a statement ends a body
  have hnot : t ∉ stop := by
    have hall : ∀ t ∈ stmtStart, t ∉ closers := by decide
    exact fun hmem => hall t ht (hstop t hmem)
  have hwrite : said (write (s ++ b)) ++ z = said p ++ (said (write b) ++ z) := by
    simp [write, hp]
  rw [hwrite]
  exact ⟨.bodyStmt hlook hnot (hder hnext) hbody,
    hstart.mono fun t ht => List.mem_append_left _ ht⟩

/-! ### Derivations -/

/-- Whatever a production derives can be rewritten: by induction on its derivation. -/
theorem Derives.rewritten {c : Cat} {rs rs' : List LexResult} {s : Syn} (h : Derives c rs s rs') :
    Rewritten c s := by
  induction h with
  | chainEnd _ _ => exact fun i ts hi => ⟨ts, hi⟩
  | chainDot _ _ hmember _ ih => exact rewritten_chainDot hmember ih
  | callOptEnd _ _ => exact rewritten_callOptEnd
  | callOptCall _ ih => exact rewritten_callOptCall ih
  | callNone _ _ => exact ⟨.nil, by rw [Forest.append_nil], fun z => .callNone rfl rfl⟩
  | callSome _ _ _ _ _ _ ihe ihas => exact rewritten_callSome ihe ihas
  | argsEnd _ _ => exact rewritten_argsEnd
  | argsComma _ _ _ ihe ihas => exact rewritten_argsComma ihe ihas
  | symbol _ _ _ ihchain ihcall => exact rewritten_symbol ihchain ihcall
  | constructor _ _ _ ihchain ihcall => exact rewritten_constructor ihchain ihcall
  | literal _ => exact ⟨_, rfl, fun _ _ _ => .atom (.literal rfl)⟩
  | insert _ _ _ => exact ⟨_, rfl, fun _ _ _ => .atom (.insert rfl rfl rfl rfl)⟩
  | singleton _ _ _ => exact ⟨_, rfl, fun _ _ _ => .atom (.singleton rfl rfl rfl rfl)⟩
  | paren _ _ _ ih => exact ih
  | unop _ _ ih => exact operand_unop _ ih
  | atom _ ih => exact ih
  | expr _ _ ihl ihs => exact ihs ihl
  | climbEnd _ _ => exact fun hl => hl
  | climbOp hcont _ _ ihr ihs => exact fun hl => ihs (operand_binop hcont.1 hl ihr)
  | paramsLast _ hty _ _ => exact rewritten_paramsLast hty
  | paramsComma _ hty _ _ ih => exact rewritten_paramsComma hty ih
  | paramsNone _ => exact fun z hz => .paramsNone hz
  | paramsSome _ _ _ ih => exact rewritten_paramsSome ih
  | branch _ _ _ ihc ihb => exact rewritten_branch ihc ihb
  | elifsEnd _ _ => exact rewritten_elifsEnd
  | elifsElif _ _ _ ihb ihes => exact rewritten_elifsElif ihb ihes
  | elseNone _ _ => exact fun z hz => ⟨.elseNone hz (by decide), .tokenEnd, by decide, hz⟩
  | elseSome _ _ ih => exact rewritten_elseSome ih
  | vardecl _ _ hty _ _ ih => exact rewritten_vardecl hty ih
  | fundecl _ _ _ _ _ hty _ _ ihps ihb => exact rewritten_fundecl hty ihps ihb
  | returnStmt _ _ ih => exact rewritten_returnStmt ih
  | ifStmt _ _ _ _ _ ihb ihes ihl => exact rewritten_ifStmt ihb ihes ihl
  | whileStmt _ _ _ _ _ ihc ihb => exact rewritten_whileStmt ihc ihb
  | assign _ _ _ _ ihchain ihe => exact rewritten_assign ihchain ihe
  | callStmt _ _ _ ihchain ihcall => exact rewritten_callStmt ihchain ihcall
  | bodyEnd _ _ => exact rewritten_bodyEnd
  | bodyStmt _ _ _ _ ihs ihb => exact rewritten_bodyStmt ihs ihb

/-- A module is derived from what is written for it. -/
theorem DerivesModule.rewritten {rs : List LexResult} {m : Syn} (h : DerivesModule rs m) :
    DerivesModule (said (write m)) m := by
  obtain ⟨hbody, hstart⟩ := h.body.rewritten (by decide) [] ⟨.tokenEof, by decide, rfl⟩
  rw [List.append_nil] at hbody hstart
  refine ⟨fun t ht => ?_, hbody⟩
  obtain ⟨t', hmem, ht'⟩ := hstart
  obtain rfl : t' = t := Option.some.inj (ht'.symm.trans ht)
  have hall : ∀ t ∈ stmtStart ++ closers, t ∉ headerTokens := by decide
  exact hall t' hmem

end Nucleus.Spec
