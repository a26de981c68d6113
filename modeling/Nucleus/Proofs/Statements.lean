import Nucleus.Proofs.Expressions

/-!
# `Nucleus.Proofs.Statements`: the statement productions

`nulang__parse_stmt` and the productions below it meet the grammar, as the expression
productions do. At an idle token `nulang__parse_stmt` returns success without reading it, and the
loop that called it comes back to the same token for ever (`bodyLoop_idle`).
-/

set_option autoImplicit false

namespace Nucleus.Proofs

open Nucleus.Lib
open Nucleus.Lib.Prog
open Nucleus.Lang
open Nucleus.Spec

/-- What `nulang__parse_stmt` returns: a statement, or nothing at an idle token. -/
def StmtResult {L : Type} [TokenSource L] [LawfulTokenSource L] (rs : List LexResult) (a : Ast) :
    Option NodeId → Parser L → Prop
  | some id, p' => Result .stmt rs a [] id p'
  | none, p' => At p' rs a ∧ ∃ t, lookahead rs = some t ∧ t ∈ idleTokens

/-- At an idle token a statement reads nothing. -/
def Idles {L : Type} [TokenSource L] [LawfulTokenSource L] (callee : Productions L) : Prop :=
  ∀ (p : Parser L) (rs : List LexResult) (a : Ast) (t : TokenType), At p rs a →
    lookahead rs = some t → t ∈ idleTokens →
    callee.parseStmt p = none ∨ ∃ p', callee.parseStmt p = some (.ok none, p') ∧ At p' rs a

/-- The forward-declared productions meet the grammar. -/
structure Correct {L : Type} [TokenSource L] [LawfulTokenSource L] (callee : Productions L) :
    Prop extends CorrectExpr callee where
  stmt : ∀ (p : Parser L) (rs : List LexResult) (a : Ast), At p rs a → a.Valid →
    Spec callee.parseStmt p (StmtResult rs a)
  idle : Idles callee

variable {L : Type} [TokenSource L] [LawfulTokenSource L]

/-! ### Bodies -/

/-- At an idle token a statement loop never ends. -/
theorem bodyLoop_idle {self : Productions L} (hself : Idles self)
    {stop : List TokenType} {parent : NodeId} {rs : List LexResult} {t : TokenType}
    (ht : lookahead rs = some t) (hidle : t ∈ idleTokens) (hstop : t ∉ stop) (n : Nat)
    {p : Parser L} {a : Ast} (h : At p rs a) :
    loop (parseBodyStmt self stop parent) n () p = none := by
  refine loop_eq_none_of_stuck (I := fun _ p => ∃ a, At p rs a) ?_ n () p ⟨a, h⟩
  rintro ⟨⟩ p ⟨a, h⟩
  obtain ⟨tok, p₁, hpeek, htok, h₁⟩ := parserPeek_returns (Q := fun tok p' =>
    tok.type = t ∧ At p' rs a) h ht fun tok p' _ htype hat => ⟨htype, hat⟩
  unfold parseBodyStmt
  rw [bind_run_ok hpeek, if_neg (by rw [htok]; exact hstop)]
  rcases hself p₁ rs a t h₁ ht hidle with hnone | ⟨p₂, hstmt, h₂⟩
  · exact Or.inl (bind_run_none hnone)
  · refine Or.inr ⟨(), _, ?_, _, parserAppendChild_at h₂ parent p₂.uninit⟩
    rw [bind_run_ok hstmt]
    rfl

/-- The statements of a body, below a compound `y` that is the last child of a tree and has
the children `ds` so far. -/
theorem parseBody_spec {self : Productions L} (hself : Correct self)
    {stop : List TokenType} {a₀ : Ast} {o : List Nat} {x y : NodeId × Kind} {cs : Located} :
    ∀ (n : Nat) {p : Parser L} {rs : List LexResult} {a : Ast} {ds : Located}, At p rs a →
      Builds a₀ a o (.tree x (cs ++ .tree y ds)) →
      Spec (loop (parseBodyStmt self stop y.1) n ()) p fun _ p' =>
        ∃ ss rs' b, At p' rs' b ∧ Builds a₀ b o (.tree x (cs ++ .tree y (ds ++ ss))) ∧
          Derives (.body stop) rs (syn ss) rs' := by
  intro n
  induction n with
  | zero => exact fun _ _ => Spec.diverge
  | succ n ih =>
      intro p rs a ds h hb
      rw [loop_succ]
      refine Spec.bind (Spec.bind (parserPeek_spec h fun tok p₁ hhead h₁ => ?_))
      have ht := hhead.lookahead
      split
      · rename_i hstop
        refine Spec.pure (Spec.pure ⟨.nil, rs, a, h₁, ?_, .bodyEnd ht hstop⟩)
        rw [Forest.append_nil]
        exact hb
      · rename_i hstop
        refine Spec.bind ((hself.stmt p₁ rs a h₁ hb.valid).mono ?_)
        rintro (_ | id) p₂ hres
        · -- an idle token: the next turn finds it again
          obtain ⟨h₂, t, ht', hidle⟩ := hres
          obtain rfl : tok.type = t := Option.some.inj (ht.symm.trans ht')
          refine Spec.bind (Spec.gets (Spec.bind (parserAppendChild_spec h₂ fun p₃ h₃ => ?_)))
          exact Spec.pure (Spec.of_none (bodyLoop_idle hself.idle ht hidle hstop n h₃))
        -- a statement: its tree is appended, and the loop goes on behind it
        · obtain ⟨k, es, rs₁, b, h₂, hb₂, hstmt⟩ := hres
          refine Spec.bind (Spec.gets (Spec.bind (parserAppendChild_spec h₂ fun p₃ h₃ =>
            Spec.pure ?_)))
          refine (ih h₃ (hb.call hb₂).appendLast).mono ?_
          rintro - p' ⟨ss, rs', b', h', hb', hbody⟩
          refine ⟨.tree (id, k) es ++ ss, rs', b', h', ?_, ?_⟩
          · rw [← Forest.append_assoc]
            exact hb'
          · rw [syn_append]
            exact .bodyStmt ht hstop hstmt hbody

/-- The node of a body becomes the last child. -/
theorem addCompound_spec {p : Parser L} {rs : List LexResult} {a₀ a : Ast}
    {o : List Nat} {x : NodeId × Kind} {cs : Located} (h : At p rs a)
    (hb : Builds a₀ a o (.tree x cs)) {Q : NodeId → Parser L → Prop}
    (hQ : ∀ id b p', At p' rs b → Builds a₀ b o (.tree x (cs ++ .tree (id, .compound) .nil)) →
      Q id p') :
    Spec (addCompound x.1) p Q := by
  refine Spec.bind (parserAddNode_spec h fun id b p₁ hadd h₁ => ?_)
  refine Spec.bind (Spec.gets (Spec.bind (setNode_spec h₁ fun p₂ h₂ => ?_)))
  refine Spec.bind (parserAppendChild_spec h₂ fun p₃ h₃ => Spec.pure ?_)
  exact hQ id _ p₃ h₃ (Builds.newChild hadd (by exact fun _ => rfl) (by exact fun _ => rfl) hb)

/-- A compound with its statements, as the last child of a tree. -/
theorem parseCompound_spec {n : Nat} {self : Productions L} (hself : Correct self)
    {stop : List TokenType} {p : Parser L} {rs : List LexResult} {a₀ a : Ast} {o : List Nat}
    {x : NodeId × Kind} {cs : Located} (h : At p rs a) (hb : Builds a₀ a o (.tree x cs)) :
    Spec (addCompound x.1 >>= fun c => loop (parseBodyStmt self stop c) n ()) p fun _ p' =>
      ∃ id ss rs' b, At p' rs' b ∧
        Builds a₀ b o (.tree x (cs ++ .tree (id, .compound) ss)) ∧
        Derives (.body stop) rs (syn ss) rs' := by
  refine Spec.bind (addCompound_spec h hb fun id b p₁ h₁ hb₁ => ?_)
  refine (parseBody_spec hself n h₁ hb₁).mono ?_
  rintro - p' ⟨ss, rs', b', h', hb', hbody⟩
  exact ⟨id, ss, rs', b', h', hb', hbody⟩

/-! ### The branches of an `if` -/

/-- A condition and a body, below an `if` node with the children `cs` so far. -/
theorem parseBranch_spec {n : Nat} {self : Productions L} (hself : Correct self)
    {p : Parser L} {rs : List LexResult} {a₀ a : Ast} {o : List Nat} {x : NodeId × Kind}
    {cs : Located} (h : At p rs a) (hb : Builds a₀ a o (.tree x cs)) :
    Spec (parseBranch n self x.1) p fun _ p' =>
      ∃ ts rs' b, At p' rs' b ∧ Builds a₀ b o (.tree x (cs ++ ts)) ∧
        Derives .branch rs (syn ts) rs' := by
  refine Spec.bind ((hself.expr 0 p rs a h hb.valid).mono ?_)
  rintro c p₁ ⟨k, es, rs₁, b, h₁, hb₁, hexpr⟩
  refine Spec.bind (parserAppendChild_spec h₁ fun p₂ h₂ => ?_)
  refine Spec.bind (parserExpect_spec h₂ (by decide) ?_)
  rintro t rs₂ p₃ rfl ht h₃
  refine (parseCompound_spec hself h₃ (hb.call hb₁).append).mono ?_
  rintro - p' ⟨id, ss, rs', b', h', hb', hbody⟩
  refine ⟨.tree (c, k) es ++ .tree (id, .compound) ss, rs', b', h', ?_, ?_⟩
  · rw [← Forest.append_assoc]
    exact hb'
  · rw [syn_append]
    exact .branch hexpr ht hbody

/-- The loop over the further branches reads them by their rule. The induction is on its fuel. -/
theorem parseElifs_spec {m : Nat} {self : Productions L} (hself : Correct self) {a₀ : Ast}
    {o : List Nat} {x : NodeId × Kind} :
    ∀ (n : Nat) {p : Parser L} {rs : List LexResult} {a : Ast} {cs : Located}, At p rs a →
      Builds a₀ a o (.tree x cs) →
      Spec (loop (parseElif m self x.1) n ()) p fun _ p' =>
        ∃ ts rs' b, At p' rs' b ∧ Builds a₀ b o (.tree x (cs ++ ts)) ∧
          Derives .elifs rs (syn ts) rs' := by
  intro n
  -- the children of the `if` that were read so far stay in front of the new branches
  induction n with
  | zero => exact fun _ _ => Spec.diverge
  | succ n ih =>
      intro p rs a cs h hb
      rw [loop_succ]
      refine Spec.bind (Spec.bind (parserAccept_spec h (by decide) ?_ ?_))
      · rintro i rs₁ p₁ rfl hi h₁
        refine Spec.bind ((parseBranch_spec hself h₁ hb).mono ?_)
        rintro - p₂ ⟨ts, rs₂, b, h₂, hb₂, hbranch⟩
        refine Spec.pure ((ih h₂ hb₂).mono ?_)
        rintro - p' ⟨us, rs', b', h', hb', helifs⟩
        refine ⟨ts ++ us, rs', b', h', ?_, ?_⟩
        · rw [← Forest.append_assoc]
          exact hb'
        · rw [syn_append]
          exact .elifsElif hi hbranch helifs
      -- no `elif`: nothing is read
      · rintro t p₁ ht helif h₁
        refine Spec.pure (Spec.pure ⟨.nil, rs, a, h₁, ?_, .elifsEnd ht helif⟩)
        rw [Forest.append_nil]
        exact hb

/-- The last branch is read by its rule. -/
theorem parseElse_spec {n : Nat} {self : Productions L} (hself : Correct self)
    {p : Parser L} {rs : List LexResult} {a₀ a : Ast} {o : List Nat} {x : NodeId × Kind}
    {cs : Located} (h : At p rs a) (hb : Builds a₀ a o (.tree x cs)) :
    Spec (parseElse n self x.1) p fun _ p' =>
      ∃ ts rs' b, At p' rs' b ∧ Builds a₀ b o (.tree x (cs ++ ts)) ∧
        Derives .elseOpt rs (syn ts) rs' := by
  refine Spec.bind (parserAccept_spec h (by decide) ?_ ?_)
  · rintro i rs₁ p₁ rfl hi h₁
    refine (parseCompound_spec hself h₁ hb).mono ?_
    rintro - p' ⟨id, ss, rs', b, h', hb', hbody⟩
    exact ⟨.tree (id, .compound) ss, rs', b, h', hb', .elseSome hi hbody⟩
  · rintro t p₁ ht helse h₁
    refine Spec.pure ⟨.nil, rs, a, h₁, ?_, .elseNone ht helse⟩
    rw [Forest.append_nil]
    exact hb

/-- A conditional is read by its rule. -/
theorem parseIfStmt_spec {n : Nat} {self : Productions L} (hself : Correct self)
    {p : Parser L} {rs : List LexResult} {a : Ast} (h : At p rs a) (hv : a.Valid) :
    Spec (parseIfStmt n self) p (Result .stmt rs a []) := by
  refine Spec.bind (parserExpect_spec h (by decide) ?_)
  rintro i rs₁ p₁ rfl hi h₁
  refine Spec.bind (parserAddNode_spec h₁ fun id b p₂ hadd h₂ => ?_)
  refine Spec.bind (setNode_spec h₂ fun p₃ h₃ => ?_)
  -- the node of the `if`, to which the branches are added one behind the other
  have hif := builds_add (k := .ifStmt) (f := fun n => { n with type := .astIf, span := i.span })
    hv hadd (by exact fun _ => rfl) (by exact fun _ => rfl)
  refine Spec.bind ((parseBranch_spec hself h₃ hif).mono ?_)
  rintro - p₄ ⟨bs, rs₄, b₄, h₄, hb₄, hbranch⟩
  refine Spec.bind ((parseElifs_spec hself n h₄ hb₄).mono ?_)
  rintro - p₅ ⟨es, rs₅, b₅, h₅, hb₅, helifs⟩
  refine Spec.bind ((parseElse_spec hself h₅ hb₅).mono ?_)
  rintro - p₆ ⟨ls, rs₆, b₆, h₆, hb₆, helse⟩
  refine Spec.bind (parserExpect_spec h₆ (by decide) ?_)
  rintro e rs' p' rfl he h'
  refine Spec.pure ⟨.ifStmt, _, rs', b₆, h', hb₆, ?_⟩
  rw [Forest.nil_append, syn_append, syn_append, Forest.append_assoc]
  exact .ifStmt hi hbranch helifs helse he

/-! ### Functions -/

/-- The arguments of a function, below its node with the children `ds` so far. -/
theorem parseParams_spec {a₀ : Ast} {o : List Nat} {x : NodeId × Kind} :
    ∀ (n : Nat) {p : Parser L} {rs : List LexResult} {a : Ast} {ds : Located}, At p rs a →
      Builds a₀ a o (.tree x ds) →
      Spec (loop (parseArgdecl x.1) n ()) p fun _ p' =>
        ∃ ps rs' b, At p' rs' b ∧ Builds a₀ b o (.tree x (ds ++ ps)) ∧
          Derives .params rs (syn ps) rs' := by
  intro n
  induction n with
  | zero => exact fun _ _ => Spec.diverge
  | succ n ih =>
      intro p rs a ds h hb
      rw [loop_succ]
      refine Spec.bind (Spec.bind (parserExpect_spec h (by decide) ?_))
      rintro i rs₁ p₁ rfl hi h₁
      refine Spec.bind (parseVartype_spec h₁ fun ty rs₂ p₂ hty h₂ => ?_)
      refine Spec.bind (parserAddNode_spec h₂ fun id b p₃ hadd h₃ => ?_)
      refine Spec.bind (setNode_spec h₃ fun p₄ h₄ => ?_)
      refine Spec.bind (parserAppendChild_spec h₄ fun p₅ h₅ => ?_)
      have hb₅ := Builds.newChild (k := .argdecl i.value.toIdentifier ty)
        (f := fun n => { n with
            type := .astArgdecl, span := i.span, value := .argdecl i.value.toIdentifier ty })
        hadd (by exact fun _ => rfl) (by exact fun _ => rfl) hb
      refine Spec.bind (parserAccept_spec h₅ (by decide) ?_ ?_)
      · -- behind a comma the loop goes on, with one child more
        rintro c rs₃ p₆ rfl hc h₆
        refine Spec.pure ((ih h₆ hb₅).mono ?_)
        rintro - p' ⟨ps, rs', b', h', hb', hparams⟩
        refine ⟨.leaf (id, .argdecl i.value.toIdentifier ty) ++ ps, rs', b', h', ?_, ?_⟩
        · rw [← Forest.append_assoc]
          exact hb'
        · rw [syn_append]
          exact .paramsComma hi hty hc hparams
      · rintro t p₆ ht hcomma h₆
        exact Spec.pure (Spec.pure ⟨.leaf (id, .argdecl i.value.toIdentifier ty), rs₂, _, h₆, hb₅,
          .paramsLast hi hty ht hcomma⟩)

/-- The parameters are read by their rule. -/
theorem parseArgdecls_spec {n : Nat} {p : Parser L} {rs : List LexResult} {a₀ a : Ast}
    {o : List Nat} {x : NodeId × Kind} (h : At p rs a) (hb : Builds a₀ a o (.tree x .nil)) :
    Spec (parseArgdecls n x.1) p fun _ p' =>
      ∃ ps rs' b, At p' rs' b ∧ Builds a₀ b o (.tree x ps) ∧
        Derives .paramsOpt rs (syn ps) rs' := by
  refine Spec.bind (parserPeek_spec h fun tok p₁ hhead h₁ => ?_)
  split
  · rename_i hparen
    refine (parseParams_spec n h₁ hb).mono ?_
    rintro - p' ⟨ps, rs', b, h', hb', hparams⟩
    exact ⟨ps, rs', b, h', hb', .paramsSome hhead.lookahead hparen hparams⟩
  · rename_i hparen
    rw [not_not] at hparen
    exact Spec.pure ⟨.nil, rs, a, h₁, hb, .paramsNone (hhead.lookahead.trans (by rw [hparen]))⟩

omit [TokenSource L] [LawfulTokenSource L] in
/-- The type of a function is stored in its node. -/
theorem kind_setReturnType {n : Node} {name : SourceString} {ty ty' : Vartype} {exported : Bool}
    (h : n.kind = .fundecl name ty exported) :
    (setReturnType ty' n).kind = .fundecl name ty' exported := by
  have htype : n.type = .astFundecl := Node.type_of_kind h (by simp)
  unfold Node.kind at h
  simp only [htype] at h
  cases hvalue : n.value with
  | fundecl name' ty₀ exported' =>
      rw [hvalue] at h
      simp only [Kind.fundecl.injEq] at h
      obtain ⟨rfl, -, rfl⟩ := h
      simp [setReturnType, hvalue, Node.kind, htype]
  | _ =>
      rw [hvalue] at h
      cases h

/-- The type of a function is read by its rule. -/
theorem parseReturnType_spec {p : Parser L} {rs : List LexResult} {a₀ a : Ast}
    {o : List Nat} {id : NodeId} {name : SourceString} {exported : Bool} {cs : Located}
    (h : At p rs a) (hb : Builds a₀ a o (.tree (id, .fundecl name noType exported) cs))
    {Q : Unit → Parser L → Prop}
    (hQ : ∀ ty rs' b p', DerivesTypeOpt rs ty rs' → At p' rs' b →
      Builds a₀ b o (.tree (id, .fundecl name ty exported) cs) → Q () p') :
    Spec (parseReturnType id) p Q := by
  refine Spec.bind (tryParseVartype_spec h fun ty found rs' p₁ hty hnone h₁ => ?_)
  split
  · refine setNode_spec h₁ fun p₂ h₂ => hQ ty rs' _ p₂ hty h₂ (hb.relabel ?_ ?_)
    · intro n
      unfold setReturnType
      split <;> rfl
    · exact kind_setReturnType (hb.owns.kinds (id, .fundecl name noType exported) (by simp))
  · rename_i hfound
    obtain rfl := hnone (by simpa using hfound)
    exact Spec.pure (hQ noType rs' a p₁ hty h₁ hb)

/-- A function is read by its rule. -/
theorem parseFundecl_spec {n : Nat} {self : Productions L} (hself : Correct self)
    {p : Parser L} {rs : List LexResult} {a : Ast} (h : At p rs a) (hv : a.Valid) :
    Spec (parseFundecl n self false) p (Result .stmt rs a []) := by
  refine Spec.bind (parserExpect_spec h (by decide) ?_)
  rintro f rs₁ p₁ rfl hf h₁
  refine Spec.bind (parserExpect_spec h₁ (by decide) ?_)
  rintro i rs₂ p₂ rfl hi h₂
  refine Spec.bind (parserAddNode_spec h₂ fun id b p₃ hadd h₃ => ?_)
  refine Spec.bind (setNode_spec h₃ fun p₄ h₄ => ?_)
  -- the node of the function, which the parameters and the body are added to
  have hfun := builds_add (k := .fundecl i.value.toIdentifier noType false)
    (f := fun n => { n with
        type := .astFundecl
        span := i.span
        value := .fundecl i.value.toIdentifier ⟨.unknown, none, none⟩ false })
    hv hadd (by exact fun _ => rfl) (by exact fun _ => rfl)
  refine Spec.bind (parserExpect_spec h₄ (by decide) ?_)
  rintro l rs₃ p₅ rfl hl h₅
  refine Spec.bind ((parseArgdecls_spec h₅ hfun).mono ?_)
  rintro - p₆ ⟨ps, rs₄, b₆, h₆, hb₆, hparams⟩
  refine Spec.bind (parserExpect_spec h₆ (by decide) ?_)
  rintro r rs₅ p₇ rfl hr h₇
  refine Spec.bind (parseReturnType_spec h₇ hb₆ fun ty rs₆ b₈ p₈ hty h₈ hb₈ => ?_)
  rw [← bind_assoc]
  refine Spec.bind ((parseCompound_spec hself h₈ hb₈).mono ?_)
  rintro - p₉ ⟨c, ss, rs₇, b₉, h₉, hb₉, hbody⟩
  refine Spec.bind (parserExpect_spec h₉ (by decide) ?_)
  rintro e rs' p' rfl he h'
  refine Spec.pure ⟨.fundecl i.value.toIdentifier ty false, _, rs', b₉, h', hb₉, ?_⟩
  rw [syn_append]
  exact .fundecl hf hi hl hparams hr hty hbody he

/-! ### The other statements -/

/-- A declaration is read by its rule. -/
theorem parseVardecl_spec {self : Productions L} (hself : Correct self)
    {p : Parser L} {rs : List LexResult} {a : Ast} (h : At p rs a) (hv : a.Valid) :
    Spec (parseVardecl self) p (Result .stmt rs a []) := by
  refine Spec.bind (parserExpect_spec h (by decide) ?_)
  rintro l rs₁ p₁ rfl hl h₁
  refine Spec.bind (parserExpect_spec h₁ (by decide) ?_)
  rintro i rs₂ p₂ rfl hi h₂
  refine Spec.bind (tryParseVartype_spec h₂ fun ty found rs₃ p₃ hty _ h₃ => ?_)
  refine Spec.bind (parserExpect_spec h₃ (by decide) ?_)
  rintro e rs₄ p₄ rfl he h₄
  refine Spec.bind ((hself.expr 0 p₄ rs₄ a h₄ hv).mono ?_)
  rintro expr p₅ ⟨k, cs, rs', b, h₅, hb, hexpr⟩
  refine Spec.bind (parserAddNode_spec h₅ fun id c p₆ hadd h₆ => ?_)
  refine Spec.bind (setNode_spec h₆ fun p₇ h₇ => ?_)
  refine Spec.bind (parserAppendChild_spec h₇ fun p₈ h₈ => Spec.pure ?_)
  exact ⟨.vardecl i.value.toIdentifier ty, .tree (expr, k) cs, rs', _, h₈,
    Builds.wrap hadd (by exact fun _ => rfl) (by exact fun _ => rfl) hb,
    by rw [syn_tree]; exact .vardecl hl hi hty he hexpr⟩

/-- A return is read by its rule. -/
theorem parseReturnStmt_spec {self : Productions L} (hself : Correct self)
    {p : Parser L} {rs : List LexResult} {a : Ast} (h : At p rs a) (hv : a.Valid) :
    Spec (parseReturnStmt self) p (Result .stmt rs a []) := by
  refine Spec.bind (parserExpect_spec h (by decide) ?_)
  rintro r rs₁ p₁ rfl hr h₁
  refine Spec.bind ((hself.expr 0 p₁ rs₁ a h₁ hv).mono ?_)
  rintro expr p₂ ⟨k, cs, rs', b, h₂, hb, hexpr⟩
  refine Spec.bind (parserAddNode_spec h₂ fun id c p₃ hadd h₃ => ?_)
  refine Spec.bind (setNode_spec h₃ fun p₄ h₄ => ?_)
  refine Spec.bind (parserAppendChild_spec h₄ fun p₅ h₅ => Spec.pure ?_)
  exact ⟨.returnStmt, .tree (expr, k) cs, rs', _, h₅,
    Builds.wrap hadd (by exact fun _ => rfl) (by exact fun _ => rfl) hb,
    by rw [syn_tree]; exact .returnStmt hr hexpr⟩

/-- A loop is read by its rule. -/
theorem parseWhileStmt_spec {n : Nat} {self : Productions L} (hself : Correct self)
    {p : Parser L} {rs : List LexResult} {a : Ast} (h : At p rs a) (hv : a.Valid) :
    Spec (parseWhileStmt n self) p (Result .stmt rs a []) := by
  refine Spec.bind (parserExpect_spec h (by decide) ?_)
  rintro w rs₁ p₁ rfl hw h₁
  refine Spec.bind ((hself.expr 0 p₁ rs₁ a h₁ hv).mono ?_)
  rintro expr p₂ ⟨k, cs, rs₂, b, h₂, hb, hexpr⟩
  refine Spec.bind (parserAddNode_spec h₂ fun id c p₃ hadd h₃ => ?_)
  refine Spec.bind (setNode_spec h₃ fun p₄ h₄ => ?_)
  refine Spec.bind (parserAppendChild_spec h₄ fun p₅ h₅ => ?_)
  have hwhile := Builds.wrap (k := .whileStmt)
    (f := fun n => { n with type := .astWhile, span := w.span })
    hadd (by exact fun _ => rfl) (by exact fun _ => rfl) hb
  refine Spec.bind (parserExpect_spec h₅ (by decide) ?_)
  rintro d rs₃ p₆ rfl hd h₆
  -- the node of the body and the body itself belong together
  rw [← bind_assoc]
  refine Spec.bind ((parseCompound_spec hself h₆ hwhile).mono ?_)
  rintro - p₇ ⟨c', ss, rs₇, b₇, h₇, hb₇, hbody⟩
  refine Spec.bind (parserExpect_spec h₇ (by decide) ?_)
  rintro e rs' p' rfl he h'
  refine Spec.pure ⟨.whileStmt, _, rs', b₇, h', hb₇, ?_⟩
  rw [syn_append]
  exact .whileStmt hw hexpr hd hbody he

/-- An assignment to the designator `ident`, at its `=`. -/
theorem parseAssignStmt_spec {self : Productions L} (hself : Correct self)
    {p : Parser L} {rs rs₀ : List LexResult} {a₀ a : Ast} {ident : NodeId} {k : Kind}
    {cs : Located} {o : List Nat} (h : At p rs a) (hb : Builds a₀ a o (.tree (ident, k) cs))
    (hstmt : ∀ {e : Syn} {t : Token} {rs₁ rs' : List LexResult}, rs = .ok t :: rs₁ →
      t.type = .tokenAssign → Derives (.expr 0) rs₁ e rs' →
      Derives .stmt rs₀ (.tree .assign (.tree k (syn cs) ++ e)) rs') :
    Spec (parseAssignStmt self ident) p (Result .stmt rs₀ a₀ o) := by
  refine Spec.bind (parserExpect_spec h (by decide) ?_)
  rintro t rs₁ p₁ rfl ht h₁
  refine Spec.bind ((hself.expr 0 p₁ rs₁ a h₁ hb.valid).mono ?_)
  rintro expr p₂ ⟨ke, es, rs', b, h₂, hb₂, hexpr⟩
  refine Spec.bind (parserAddNode_spec h₂ fun id c p₃ hadd h₃ => ?_)
  refine Spec.bind (setNode_spec h₃ fun p₄ h₄ => ?_)
  refine Spec.bind (parserAppendChild_spec h₄ fun p₅ h₅ => ?_)
  refine Spec.bind (parserAppendChild_spec h₅ fun p₆ h₆ => Spec.pure ?_)
  refine ⟨.assign, .tree (ident, k) cs ++ .tree (expr, ke) es, rs', _, h₆,
    Builds.wrapTwo (y := (ident, k)) (z := (expr, ke)) hadd (by exact fun _ => rfl)
      (by exact fun _ => rfl) (hb.call hb₂), ?_⟩
  rw [syn_append, syn_tree, syn_tree]
  exact hstmt rfl ht hexpr

/-- What begins with a name is read as an assignment or a call. -/
theorem parseIdentStmt_spec {n : Nat} {self : Productions L} (hself : Correct self)
    {p : Parser L} {rs : List LexResult} {a : Ast} (h : At p rs a) (hv : a.Valid) :
    Spec (parseIdentStmt n self) p (Result .stmt rs a []) := by
  refine Spec.bind (parseSymbol_spec h hv ?_)
  rintro i rs₁ id b p₁ rfl hi h₁ hb
  refine Spec.bind ((tryParseMemberChain_spec h₁ hb.valid hb.owns trivial).mono ?_)
  rintro ident p₂ ⟨k, cs, rs₂, b₂, h₂, hb₂, -, hchain⟩
  have hb' := hb.through hb₂
  refine Spec.bind (parserPeek_spec h₂ fun tok p₃ hhead h₃ => ?_)
  split
  · refine parseAssignStmt_spec hself h₃ hb' ?_
    rintro e t rs₃ rs' rfl ht hexpr
    exact .assign hi hchain ht hexpr
  · split
    · refine (parseCall_spec hself.toCorrectExpr h₃ hb'.valid hb'.owns).mono ?_
      rintro call p' ⟨k', cs', rs', b', h', hb₄, hcall⟩
      exact ⟨k', cs', rs', b', h', hb'.through hb₄, .callStmt hi hchain hcall⟩
    · exact Spec.bind (report_spec h₃ fun p₄ _ => Spec.fail)

/-- A statement is read by the rule of its first token. -/
theorem parseStmt_spec {n : Nat} {self : Productions L} (hself : Correct self)
    {p : Parser L} {rs : List LexResult} {a : Ast} (h : At p rs a) (hv : a.Valid) :
    Spec (parseStmt n self) p (StmtResult rs a) := by
  refine Spec.bind (parserPeek_spec h fun tok p₁ hhead h₁ => ?_)
  -- an idle token is not read, and no node is returned
  have hidle : tok.type ∈ idleTokens →
      Spec (pure none : ParserM L (Option NodeId)) p₁ (StmtResult rs a) :=
    fun hmem => Spec.pure ⟨h₁, tok.type, hhead.lookahead, hmem⟩
  split
  · exact Spec.map (parseVardecl_spec hself h₁ hv)
  · rename_i htype
    exact hidle (by rw [htype]; decide)
  · exact Spec.map (parseFundecl_spec hself h₁ hv)
  · exact Spec.map (parseReturnStmt_spec hself h₁ hv)
  · exact Spec.map (parseIfStmt_spec hself h₁ hv)
  · rename_i htype
    exact hidle (by rw [htype]; decide)
  · exact Spec.map (parseWhileStmt_spec hself h₁ hv)
  · rename_i htype
    exact hidle (by rw [htype]; decide)
  · rename_i htype
    exact hidle (by rw [htype]; decide)
  · exact Spec.map (parseIdentStmt_spec hself h₁ hv)
  · -- no other token begins a statement
    exact Spec.bind (report_spec h₁ fun p₂ _ => Spec.fail)

/-- At an idle token `nulang__parse_stmt` succeeds and reads nothing. -/
theorem parseStmt_idle (n : Nat) (self : Productions L) {p : Parser L} {rs : List LexResult}
    {a : Ast} {t : TokenType} (h : At p rs a) (ht : lookahead rs = some t)
    (hidle : t ∈ idleTokens) :
    ∃ p', parseStmt n self p = some (.ok none, p') ∧ At p' rs a := by
  have hrun : Returns (parseStmt n self) p fun r p' => r = none ∧ At p' rs a := by
    refine Returns.bind (parserPeek_returns h ht fun tok p₁ _ htype h₁ => ?_)
    rw [htype]
    simp only [idleTokens, List.mem_cons, List.not_mem_nil, or_false] at hidle
    rcases hidle with rfl | rfl | rfl | rfl
    all_goals exact Returns.pure ⟨rfl, h₁⟩
  obtain ⟨r, p', hrun, rfl, hat⟩ := hrun
  exact ⟨p', hrun, hat⟩

/-- The productions meet the grammar at every level of fuel. -/
theorem correct : ∀ n : Nat, Correct (productions n : Productions L) := by
  intro n
  induction n with
  | zero =>
      exact ⟨correctExpr 0, fun _ _ _ _ _ => Spec.diverge, fun _ _ _ _ _ _ _ => Or.inl rfl⟩
  | succ n ih =>
      refine ⟨correctExpr (n + 1), fun p rs a h hv => ?_, fun p rs a t h ht hidle => ?_⟩
      · exact parseStmt_spec ih h hv
      · exact Or.inr (parseStmt_idle n (productions n) h ht hidle)

end Nucleus.Proofs
